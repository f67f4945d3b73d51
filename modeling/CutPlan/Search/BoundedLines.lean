import Mathlib.Tactic

/-! # Reading lines of bounded length

`read_bounded_line` of the scorer.  A line feed ends a line, and a carriage return before it is part
of the terminator; the reader counts the carriage return before it knows.
-/

namespace CutPlan.Search

abbrev Bytes := List UInt8

def lineFeed : UInt8 := 10

def carriageReturn : UInt8 := 13

inductive LineReadStatus where
  | line
  | endOfInput
  | tooLarge
  deriving DecidableEq, Repr

def popCarriageReturn (line : Bytes) : Bytes :=
  if line.getLast? = some carriageReturn then line.dropLast else line

/-- The loop over the input, with what is left of the input. -/
def readLoop (maxBytes : ℕ) : Bytes → Bool → Bytes → LineReadStatus × Bytes × Bytes
  | [], tooLarge, line =>
    if tooLarge then (.tooLarge, line, [])
    else if line ≠ [] then (.line, popCarriageReturn line, [])
    else (.endOfInput, line, [])
  | ch :: rest, tooLarge, line =>
    if ch = lineFeed then
      if tooLarge then (.tooLarge, line, rest) else (.line, popCarriageReturn line, rest)
    else if tooLarge then readLoop maxBytes rest true line
    else if maxBytes ≤ line.length then readLoop maxBytes rest true []
    else readLoop maxBytes rest false (line ++ [ch])

def readBoundedLine (maxBytes : ℕ) (input : Bytes) : LineReadStatus × Bytes × Bytes :=
  readLoop maxBytes input false []

theorem readLoop_rest_length (maxBytes : ℕ) (input : Bytes) (tooLarge : Bool) (line : Bytes) :
    (readLoop maxBytes input tooLarge line).2.2.length ≤ input.length - 1 := by
  induction input generalizing tooLarge line with
  | nil =>
    unfold readLoop
    split
    · simp
    · split <;> simp
  | cons ch rest inductionHypothesis =>
    unfold readLoop
    split
    · split <;> simp
    · have shorter : rest.length - 1 ≤ (ch :: rest).length - 1 := by simp
      split
      · exact (inductionHypothesis true line).trans shorter
      · split
        · exact (inductionHypothesis true []).trans shorter
        · exact (inductionHypothesis false (line ++ [ch])).trans shorter

theorem readBoundedLine_nil (maxBytes : ℕ) :
    readBoundedLine maxBytes [] = (.endOfInput, [], []) := rfl

/-- What a call reports of a line. -/
inductive Reading where
  | line (content : Bytes)
  | tooLarge
  deriving DecidableEq, Repr

/-- Successive calls up to the end of the input. -/
def readLines (maxBytes : ℕ) (input : Bytes) : List Reading :=
  match input with
  | [] => []
  | first :: rest =>
    let read := readBoundedLine maxBytes (first :: rest)
    match read.1 with
    | .endOfInput => []
    | .line => .line read.2.1 :: readLines maxBytes read.2.2
    | .tooLarge => .tooLarge :: readLines maxBytes read.2.2
termination_by input.length
decreasing_by
  all_goals
    have shorter := readLoop_rest_length maxBytes (first :: rest) false []
    simp only [readBoundedLine, List.length_cons] at shorter ⊢
    omega

/-! ## The lines of a stream -/

inductive Terminator where
  | lineFeed
  | carriageReturnLineFeed
  deriving DecidableEq, Repr

def Terminator.bytes : Terminator → Bytes
  | .lineFeed => [Search.lineFeed]
  | .carriageReturnLineFeed => [carriageReturn, Search.lineFeed]

/-- A carriage return right before the line feed belongs to the terminator. -/
structure TerminatedLine where
  content : Bytes
  terminator : Terminator
  noLineFeed : lineFeed ∉ content
  ownEnd : terminator = .lineFeed → content.getLast? ≠ some carriageReturn

/-- The terminated lines of a stream and what follows the last of them. -/
structure Framing where
  lines : List TerminatedLine
  last : Bytes
  noLineFeed : lineFeed ∉ last

namespace Framing

def stream (framing : Framing) : Bytes :=
  (framing.lines.flatMap fun line => line.content ++ line.terminator.bytes) ++ framing.last

/-- What exact reading reports of a content. -/
def reading (maxBytes : ℕ) (content : Bytes) : Reading :=
  if maxBytes < content.length then .tooLarge else .line content

def readings (maxBytes : ℕ) (framing : Framing) : List Reading :=
  framing.lines.map (fun line => reading maxBytes line.content) ++
    if framing.last = [] then [] else [reading maxBytes framing.last]

end Framing

/-! ## One line at a time -/

theorem readLoop_tooLarge (maxBytes : ℕ) {bytes : Bytes} (noLineFeed : lineFeed ∉ bytes)
    (line rest : Bytes) :
    readLoop maxBytes (bytes ++ lineFeed :: rest) true line = (.tooLarge, line, rest) ∧
      readLoop maxBytes bytes true line = (.tooLarge, line, []) := by
  induction bytes with
  | nil => simp [readLoop]
  | cons ch bytes inductionHypothesis =>
    simp only [List.mem_cons, not_or] at noLineFeed
    have other : ch ≠ lineFeed := Ne.symm noLineFeed.1
    simpa [readLoop, other] using inductionHypothesis noLineFeed.2

theorem readLoop_terminated (maxBytes : ℕ) {bytes : Bytes} (noLineFeed : lineFeed ∉ bytes)
    (line rest : Bytes) (within : line.length ≤ maxBytes) :
    readLoop maxBytes (bytes ++ lineFeed :: rest) false line =
      if maxBytes < (line ++ bytes).length then (.tooLarge, [], rest)
      else (.line, popCarriageReturn (line ++ bytes), rest) := by
  induction bytes generalizing line with
  | nil => simp [readLoop, not_lt.mpr within]
  | cons ch bytes inductionHypothesis =>
    simp only [List.mem_cons, not_or] at noLineFeed
    have other : ch ≠ lineFeed := Ne.symm noLineFeed.1
    simp only [List.cons_append, readLoop, other, if_false, Bool.false_eq_true]
    split
    · rename_i full
      have exceeds : maxBytes < (line ++ ch :: bytes).length := by simp; omega
      rw [if_pos exceeds, (readLoop_tooLarge maxBytes noLineFeed.2 [] rest).1]
    · rename_i space
      rw [inductionHypothesis noLineFeed.2 (line ++ [ch]) (by simp; omega)]
      simp

theorem readLoop_unterminated (maxBytes : ℕ) {bytes : Bytes} (noLineFeed : lineFeed ∉ bytes)
    (line : Bytes) (within : line.length ≤ maxBytes) (occupied : line ++ bytes ≠ []) :
    readLoop maxBytes bytes false line =
      if maxBytes < (line ++ bytes).length then (.tooLarge, [], [])
      else (.line, popCarriageReturn (line ++ bytes), []) := by
  induction bytes generalizing line with
  | nil =>
    rw [List.append_nil] at occupied
    simp [readLoop, not_lt.mpr within, occupied]
  | cons ch bytes inductionHypothesis =>
    simp only [List.mem_cons, not_or] at noLineFeed
    have other : ch ≠ lineFeed := Ne.symm noLineFeed.1
    simp only [readLoop, other, if_false, Bool.false_eq_true]
    split
    · rename_i full
      have exceeds : maxBytes < (line ++ ch :: bytes).length := by simp; omega
      rw [if_pos exceeds, (readLoop_tooLarge maxBytes noLineFeed.2 [] []).2]
    · rename_i space
      rw [inductionHypothesis noLineFeed.2 (line ++ [ch]) (by simp; omega) (by simp)]
      simp

/-- What the reader reports of the bytes before a line feed or the end. -/
def reported (maxBytes : ℕ) (bytes : Bytes) : Reading :=
  if maxBytes < bytes.length then .tooLarge else .line (popCarriageReturn bytes)

theorem readLines_terminated (maxBytes : ℕ) {bytes : Bytes} (noLineFeed : lineFeed ∉ bytes)
    (rest : Bytes) :
    readLines maxBytes (bytes ++ lineFeed :: rest) =
      reported maxBytes bytes :: readLines maxBytes rest := by
  have read := readLoop_terminated maxBytes noLineFeed [] rest (by simp)
  obtain ⟨first, tail, isCons⟩ : ∃ first tail, bytes ++ lineFeed :: rest = first :: tail :=
    List.exists_cons_of_ne_nil (by simp)
  rw [isCons] at read ⊢
  rw [readLines, readBoundedLine, read]
  by_cases exceeds : maxBytes < bytes.length <;> simp [reported, exceeds]

theorem readLines_unterminated (maxBytes : ℕ) {bytes : Bytes} (noLineFeed : lineFeed ∉ bytes) :
    readLines maxBytes bytes = if bytes = [] then [] else [reported maxBytes bytes] := by
  cases bytes with
  | nil => simp [readLines]
  | cons first tail =>
    have read := readLoop_unterminated maxBytes noLineFeed [] (by simp) (by simp)
    rw [List.nil_append] at read
    rw [readLines, readBoundedLine, read]
    by_cases exceeds : maxBytes < (first :: tail).length
    · simp only [exceeds, if_true, reported, readLines]
      rfl
    · simp only [exceeds, if_false, reported, readLines]
      rfl

namespace TerminatedLine

/-- The bytes of a line before its line feed. -/
def body (line : TerminatedLine) : Bytes :=
  match line.terminator with
  | .lineFeed => line.content
  | .carriageReturnLineFeed => line.content ++ [carriageReturn]

theorem bytes_eq (line : TerminatedLine) (rest : Bytes) :
    (line.content ++ line.terminator.bytes) ++ rest = line.body ++ lineFeed :: rest := by
  unfold body
  cases line.terminator <;> simp [Terminator.bytes]

theorem noLineFeed_body (line : TerminatedLine) : lineFeed ∉ line.body := by
  have content := line.noLineFeed
  unfold body
  cases line.terminator with
  | lineFeed => exact content
  | carriageReturnLineFeed =>
    simp only [List.mem_append, List.mem_singleton, not_or]
    exact ⟨content, by decide⟩

theorem ext_body {first second : TerminatedLine} (same : first.body = second.body) :
    first = second := by
  obtain ⟨content, terminator, noLineFeed, ownEnd⟩ := first
  obtain ⟨content', terminator', noLineFeed', ownEnd'⟩ := second
  cases terminator <;> cases terminator' <;> simp only [body] at same
  · subst same
    rfl
  · have last := ownEnd rfl
    simp [same] at last
  · have last := ownEnd' rfl
    simp [← same] at last
  · rw [List.append_left_inj] at same
    subst same
    rfl

/-- The reader reports a line as it should unless the carriage return is one byte too many. -/
theorem reported_body_iff (maxBytes : ℕ) (line : TerminatedLine) :
    reported maxBytes line.body = Framing.reading maxBytes line.content ↔
      (line.terminator = .carriageReturnLineFeed → line.content.length ≠ maxBytes) := by
  have ownEnd := line.ownEnd
  unfold body reported Framing.reading
  cases kind : line.terminator with
  | lineFeed => simp [popCarriageReturn, ownEnd kind]
  | carriageReturnLineFeed =>
    simp only [popCarriageReturn, List.length_append, List.length_singleton, List.getLast?_concat,
      if_true, List.dropLast_concat, true_imp_iff]
    by_cases exceeds : maxBytes < line.content.length
    · rw [if_pos (by omega), if_pos exceeds]
      simp only [true_iff]
      omega
    · rw [if_neg exceeds]
      by_cases exact_ : line.content.length = maxBytes
      · simp [exact_]
      · rw [if_neg (by omega)]
        simp [exact_]

end TerminatedLine

theorem reported_unterminated_iff (maxBytes : ℕ) (last : Bytes) :
    reported maxBytes last = Framing.reading maxBytes last ↔
      (last.length ≤ maxBytes → last.getLast? ≠ some carriageReturn) := by
  unfold reported Framing.reading
  by_cases exceeds : maxBytes < last.length
  · simp [exceeds]
  · simp only [exceeds, if_false, Reading.line.injEq, not_lt.mp exceeds, true_imp_iff]
    unfold popCarriageReturn
    split
    · rename_i returned
      simp only [returned, ne_eq, not_true_eq_false, iff_false]
      intro same
      have lengths := congrArg List.length same
      have occupied : last ≠ [] := by
        intro empty
        simp [empty] at returned
      have positive := List.length_pos_iff.mpr occupied
      rw [List.length_dropLast] at lengths
      omega
    · rename_i other
      simp [other]

/-- The bytes before the first line feed are determined. -/
theorem append_lineFeed_inj {first second firstRest secondRest : Bytes}
    (noFirst : lineFeed ∉ first) (noSecond : lineFeed ∉ second)
    (same : first ++ lineFeed :: firstRest = second ++ lineFeed :: secondRest) :
    first = second ∧ firstRest = secondRest := by
  have upTo : ∀ {bytes : Bytes} (rest : Bytes), lineFeed ∉ bytes →
      (bytes ++ lineFeed :: rest).takeWhile (fun ch => ch ≠ lineFeed) = bytes := by
    intro bytes rest none
    rw [List.takeWhile_append_of_pos, List.takeWhile_cons_of_neg (by simp), List.append_nil]
    intro ch member
    simpa using ne_of_mem_of_not_mem member none
  have bodies : first = second := by rw [← upTo firstRest noFirst, same, upTo secondRest noSecond]
  subst bodies
  exact ⟨rfl, by simpa using same⟩

namespace Framing

theorem stream_cons (line : TerminatedLine) (lines : List TerminatedLine) (last : Bytes)
    (noLineFeed : lineFeed ∉ last) :
    (Framing.mk (line :: lines) last noLineFeed).stream =
      line.body ++ lineFeed :: (Framing.mk lines last noLineFeed).stream := by
  rw [← line.bytes_eq]
  simp [stream, List.append_assoc]

/-! ## Every stream has one framing -/

theorem exists_framing (bytes : Bytes) : ∃ framing : Framing, framing.stream = bytes := by
  induction bytes with
  | nil => exact ⟨⟨[], [], by simp⟩, rfl⟩
  | cons ch bytes inductionHypothesis =>
    obtain ⟨framing, rfl⟩ := inductionHypothesis
    obtain ⟨lines, last, noLineFeed⟩ := framing
    by_cases ends : ch = lineFeed
    · subst ends
      exact ⟨⟨⟨[], .lineFeed, by simp, by simp⟩ :: lines, last, noLineFeed⟩, rfl⟩
    · cases lines with
      | nil => exact ⟨⟨[], ch :: last, by simp [noLineFeed, Ne.symm ends]⟩, rfl⟩
      | cons line lines =>
        obtain ⟨content, terminator, clean, ownEnd⟩ := line
        by_cases joins : terminator = .lineFeed ∧ content = [] ∧ ch = carriageReturn
        · obtain ⟨rfl, rfl, rfl⟩ := joins
          exact ⟨⟨⟨[], .carriageReturnLineFeed, by simp, by simp⟩ :: lines, last, noLineFeed⟩, rfl⟩
        · refine ⟨⟨⟨ch :: content, terminator, by simp [clean, Ne.symm ends], ?_⟩ :: lines, last,
            noLineFeed⟩, rfl⟩
          intro isLineFeed
          cases content with
          | nil => simpa [isLineFeed] using joins
          | cons => simpa using ownEnd isLineFeed

theorem stream_inj {first second : Framing} (same : first.stream = second.stream) :
    first = second := by
  obtain ⟨lines, last, noLineFeed⟩ := first
  obtain ⟨lines', last', noLineFeed'⟩ := second
  induction lines generalizing lines' with
  | nil =>
    cases lines' with
    | nil =>
      simp only [stream, List.flatMap_nil, List.nil_append] at same
      subst same
      rfl
    | cons line lines' =>
      rw [stream_cons] at same
      simp only [stream, List.flatMap_nil, List.nil_append] at same
      simp [same] at noLineFeed
  | cons line lines inductionHypothesis =>
    cases lines' with
    | nil =>
      rw [stream_cons] at same
      simp only [stream, List.flatMap_nil, List.nil_append] at same
      simp [← same] at noLineFeed'
    | cons line' lines' =>
      rw [stream_cons, stream_cons] at same
      obtain ⟨bodies, rest⟩ :=
        append_lineFeed_inj line.noLineFeed_body line'.noLineFeed_body same
      have restSame := inductionHypothesis lines' rest
      simp only [Framing.mk.injEq] at restSame ⊢
      exact ⟨by rw [TerminatedLine.ext_body bodies, restSame.1], restSame.2⟩

/-! ## When reading is exact -/

theorem readLines_stream (maxBytes : ℕ) (framing : Framing) :
    readLines maxBytes framing.stream =
      framing.lines.map (fun line => reported maxBytes line.body) ++
        if framing.last = [] then [] else [reported maxBytes framing.last] := by
  obtain ⟨lines, last, noLineFeed⟩ := framing
  induction lines with
  | nil => simpa [stream] using readLines_unterminated maxBytes noLineFeed
  | cons line lines inductionHypothesis =>
    rw [stream_cons, readLines_terminated maxBytes line.noLineFeed_body, inductionHypothesis]
    rfl

/-- No content of exactly the limit ends in a carriage return and a line feed, and what follows the
last line feed, if it is within the limit, does not end in a carriage return. -/
def Exact (maxBytes : ℕ) (framing : Framing) : Prop :=
  (∀ line ∈ framing.lines, line.terminator = .carriageReturnLineFeed →
    line.content.length ≠ maxBytes) ∧
  (framing.last.length ≤ maxBytes → framing.last.getLast? ≠ some carriageReturn)

theorem readings_iff (maxBytes : ℕ) (framing : Framing) :
    readLines maxBytes framing.stream = framing.readings maxBytes ↔ framing.Exact maxBytes := by
  rw [readLines_stream, readings]
  constructor
  · intro equal
    have same := List.append_inj equal (by simp)
    constructor
    · intro line member
      exact (line.reported_body_iff maxBytes).mp (List.map_inj_left.mp same.1 line member)
    · intro within
      by_cases empty : framing.last = []
      · simp [empty]
      · have last := same.2
        simp only [empty, if_false, List.cons.injEq, and_true] at last
        exact (reported_unterminated_iff maxBytes framing.last).mp last within
  · intro isExact
    rw [(reported_unterminated_iff maxBytes framing.last).mpr isExact.2]
    congr 1
    apply List.map_inj_left.mpr
    intro line member
    exact (line.reported_body_iff maxBytes).mpr (isExact.1 line member)

end Framing

/-- Every stream has one framing, and its lines are read exactly if and only if no line meets the
limit with a carriage return. -/
theorem readLines_exact_iff (maxBytes : ℕ) (stream : Bytes) :
    ∃ framing : Framing, framing.stream = stream ∧
      (∀ other : Framing, other.stream = stream → other = framing) ∧
      (readLines maxBytes stream = framing.readings maxBytes ↔ framing.Exact maxBytes) := by
  obtain ⟨framing, rfl⟩ := Framing.exists_framing stream
  exact ⟨framing, rfl, fun other same => Framing.stream_inj same, framing.readings_iff maxBytes⟩

/-- One line with the content `a`, ended by a carriage return and a line feed. -/
def Framing.letterLine : Framing where
  lines := [⟨[97], .carriageReturnLineFeed, by decide, by simp⟩]
  last := []
  noLineFeed := by simp

theorem letterLine_tooLarge :
    ¬ readLines 1 Framing.letterLine.stream = Framing.letterLine.readings 1 := by
  rw [Framing.readings_iff]
  intro isExact
  exact isExact.1 ⟨[97], .carriageReturnLineFeed, by decide, by simp⟩ (by simp [Framing.letterLine])
    rfl rfl

end CutPlan.Search
