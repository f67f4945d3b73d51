import CutPlan.Lib.SExpression
import Mathlib.Data.List.DropRight
import Mathlib.Tactic.IntervalCases

/-! # The initial state of a problem text

How the `:init` section of a PDDL problem is found in its text and another one is put in its place.
-/

namespace CutPlan.Controller

open CutPlan.Lib.Lisp

/-! ## Operations on texts -/

/-- `str.lower`: İ becomes two characters.  Every other letter remains one character, and outside of ASCII
none becomes one of `(:init`. -/
def lowerChar (char : Char) : List Char :=
  if char.toNat = 0x130 then ['i', Char.ofNat 0x307] else [char.toLower]

def lowerCase (text : List Char) : List Char := text.flatMap lowerChar

/-- The first place of a text in another one, from a position on. -/
def find (text searched : List Char) (start : ℕ) : Option ℕ :=
  (List.range (text.length + 1)).find? fun index => start ≤ index && searched.isPrefixOf (text.drop index)

def strip (text : List Char) : List Char := (text.dropWhile isSpace).rdropWhile isSpace

/-- The line boundaries of `str.splitlines`. -/
def breaksLine (char : Char) : Bool :=
  char.toNat ∈ [0x0a, 0x0b, 0x0c, 0x0d, 0x1c, 0x1d, 0x1e, 0x85, 0x2028, 0x2029]

/-- The lines of a text after the beginning of its first one. -/
def splitLinesFrom : List Char → List Char → List (List Char)
  | line, [] => if line = [] then [] else [line]
  | line, '\r' :: '\n' :: text => line :: splitLinesFrom [] text
  | line, char :: text =>
    if breaksLine char then line :: splitLinesFrom [] text else splitLinesFrom (line ++ [char]) text

def splitLines (text : List Char) : List (List Char) := splitLinesFrom [] text

/-! ## The section -/

def marker (sectionName : List Char) : List Char := "(:".toList ++ lowerCase sectionName

/-- The first place of the marker before the end of the text, a space or a closing parenthesis.  The marker
is searched in the lower-case text, and the character after it is taken from the text itself. -/
def findStart (text lowered marker : List Char) : ℕ → ℕ → Option ℕ
  | 0, _ => none
  | fuel + 1, searchFrom =>
    match find lowered marker searchFrom with
    | none => none
    | some start =>
      let markerEnd := start + marker.length
      if markerEnd = text.length then some start
      else
        match text[markerEnd]? with
        -- behind the end of the text, which raises
        | none => none
        | some char =>
          if isSpace char || char = ')' then some start
          else findStart text lowered marker fuel markerEnd

/-- The index after the parenthesis that closes the first one. -/
def findEnd : ℤ → Bool → List Char → ℕ → Option ℕ
  | _, _, [], _ => none
  | depth, true, char :: text, index => findEnd depth (!endsComment char) text (index + 1)
  | depth, false, char :: text, index =>
    if char = ';' then findEnd depth true text (index + 1)
    else if char = '(' then findEnd (depth + 1) false text (index + 1)
    else if char = ')' then
      if depth - 1 = 0 then some (index + 1)
      else if depth - 1 < 0 then none
      else findEnd (depth - 1) false text (index + 1)
    else findEnd depth false text (index + 1)

def findBalancedSection (text sectionName : List Char) : Option (ℕ × ℕ) := do
  let lowered := lowerCase text
  let start ← findStart text lowered (marker sectionName) (lowered.length + 1) 0
  let stop ← findEnd 0 false (text.drop start) start
  return (start, stop)

def initName : List Char := "init".toList

/-- The facts with their `(:init …)` around them. -/
def wrapFacts (facts : List Char) : List Char := "(:init\n".toList ++ (facts ++ "\n)".toList)

def normalizeInit (initText : List Char) : Option (List Char) := do
  let stripped := strip initText
  guard (stripped ≠ [])
  let normalized := if "(:init".toList.isPrefixOf (lowerCase stripped) then stripped else wrapFacts stripped
  let (start, stop) ← findBalancedSection normalized initName
  guard (start = 0 ∧ strip (normalized.drop stop) = [])
  return normalized

/-- What stands between the last line feed and a position. -/
def indentation (text : List Char) (start : ℕ) : List Char := (text.take start).rtakeWhile (· ≠ '\n')

def replaceProblemInit (problemText initText : List Char) : Option (List Char) := do
  let initBlock ← normalizeInit initText
  let (start, stop) ← findBalancedSection problemText initName
  let indentedInit := List.intercalate ('\n' :: indentation problemText start) (splitLines initBlock)
  return problemText.take start ++ (indentedInit ++ problemText.drop stop)

/-! ## Where the section is found -/

def initMarker : List Char := marker initName

theorem initMarker_eq : initMarker = ['(', ':', 'i', 'n', 'i', 't'] := by decide

/-- The marker stands at a place of the lower-case text, and the text has a boundary as many characters after
that index as the marker is long. -/
def Accepts (text : List Char) (index : ℕ) : Prop :=
  initMarker <+: (lowerCase text).drop index ∧
    (index + 6 = text.length ∨ ∃ char, text[index + 6]? = some char ∧ (isSpace char = true ∨ char = ')'))

theorem find_eq_some_iff {text searched : List Char} {start index : ℕ} :
    find text searched start = some index ↔
      index ≤ text.length ∧ start ≤ index ∧ searched <+: text.drop index ∧
        ∀ other, start ≤ other → other < index → ¬ searched <+: text.drop other := by
  simp only [find, List.find?_range_eq_some, Bool.and_eq_true, decide_eq_true_eq, List.isPrefixOf_iff_prefix,
    List.mem_range, Bool.not_eq_true', Bool.and_eq_false_imp]
  constructor
  · rintro ⟨⟨from?, isPrefix⟩, inText, earlier⟩
    refine ⟨by omega, from?, isPrefix, fun other later before found => ?_⟩
    have absent := earlier other before later
    rw [← List.isPrefixOf_iff_prefix] at found
    simp [found] at absent
  · rintro ⟨inText, from?, isPrefix, earlier⟩
    refine ⟨⟨from?, isPrefix⟩, by omega, fun other before later => ?_⟩
    have absent := earlier other later before
    rw [← List.isPrefixOf_iff_prefix, Bool.not_eq_true] at absent
    exact absent

/-- Two places of the marker do not overlap. -/
theorem add_six_le_of_markers {text : List Char} {first second : ℕ} (isFirst : initMarker <+: text.drop first)
    (isSecond : initMarker <+: text.drop second) (before : first < second) : first + 6 ≤ second := by
  by_contra overlaps
  obtain ⟨firstRest, isFirst⟩ := isFirst
  obtain ⟨secondRest, isSecond⟩ := isSecond
  -- the first character of the second marker is one of the others of the first
  have opens : text[second]? = some '(' := by
    have first? := congrArg (·[0]?) isSecond
    simpa [initMarker_eq] using first?.symm
  have inFirst := congrArg (·[second - first]?) isFirst
  simp only [List.getElem?_drop, Nat.add_sub_cancel' before.le, opens] at inFirst
  have close : second - first < 6 := by omega
  have apart : second - first ≠ 0 := by omega
  rw [initMarker_eq] at inFirst
  interval_cases second - first <;> simp_all

/-- The section is found at the first place that is accepted. -/
theorem findStart_eq {text : List Char} {index : ℕ} (accepts : Accepts text index)
    (inside : index + 6 ≤ text.length) {fuel searchFrom : ℕ} (ahead : searchFrom ≤ index)
    (earlier : ∀ other, searchFrom ≤ other → other < index → ¬ Accepts text other)
    (enough : index - searchFrom < fuel) :
    findStart text (lowerCase text) initMarker fuel searchFrom = some index := by
  induction fuel generalizing searchFrom with
  | zero => omega
  | succ fuel inductionHypothesis =>
    have inLowered : index ≤ (lowerCase text).length := by
      obtain ⟨rest, isRest⟩ := accepts.1
      have lengths := congrArg List.length isRest
      rw [List.length_append, List.length_drop, initMarker_eq] at lengths
      simp only [List.length_cons, List.length_nil] at lengths
      omega
    cases found : find (lowerCase text) initMarker searchFrom with
    | none =>
      have absent := List.find?_range_eq_none.mp found index (by omega)
      simp [ahead, List.isPrefixOf_iff_prefix.mpr accepts.1] at absent
    | some start =>
      obtain ⟨-, later, isPrefix, first⟩ := find_eq_some_iff.mp found
      have atMost : start ≤ index := by
        by_contra behind
        exact first index ahead (by omega) accepts.1
      have length : initMarker.length = 6 := rfl
      simp only [findStart, found, length]
      obtain isIndex | before := atMost.eq_or_lt
      · subst isIndex
        obtain isEnd | ⟨char, isChar, boundary⟩ := accepts.2
        · rw [if_pos isEnd]
        · have inText : start + 6 < text.length := (List.getElem?_eq_some_iff.mp isChar).1
          rw [if_neg (by omega), isChar]
          simp [boundary]
      · -- a marker without a boundary after it
        have rejected := earlier start later before
        have next := add_six_le_of_markers isPrefix accepts.1 before
        have inText : start + 6 < text.length := by omega
        rw [if_neg (by omega), List.getElem?_eq_getElem inText]
        have noBoundary : ¬ (isSpace text[start + 6] = true ∨ text[start + 6] = ')') := fun boundary =>
          rejected ⟨isPrefix, .inr ⟨_, List.getElem?_eq_getElem inText, boundary⟩⟩
        have continues := inductionHypothesis next
          (fun other after => earlier other (by omega)) (by omega)
        simpa [noBoundary] using continues

theorem accepts_of_findStart {text : List Char} {fuel searchFrom start : ℕ}
    (found : findStart text (lowerCase text) initMarker fuel searchFrom = some start) :
    Accepts text start ∧ searchFrom ≤ start ∧
      ∀ other, searchFrom ≤ other → other < start → ¬ Accepts text other := by
  induction fuel generalizing searchFrom with
  | zero => cases found
  | succ fuel inductionHypothesis =>
    have length : initMarker.length = 6 := rfl
    cases isFind : find (lowerCase text) initMarker searchFrom with
    | none => simp [findStart, isFind] at found
    | some place =>
      obtain ⟨-, later, isPrefix, first⟩ := find_eq_some_iff.mp isFind
      have noEarlier : ∀ other, searchFrom ≤ other → other < place → ¬ Accepts text other :=
        fun other after before accepts => first other after before accepts.1
      simp only [findStart, isFind, length] at found
      split_ifs at found with isEnd
      · cases found
        exact ⟨⟨isPrefix, .inl isEnd⟩, later, noEarlier⟩
      · cases isChar : text[place + 6]? with
        | none => simp [isChar] at found
        | some char =>
          simp only [isChar] at found
          split_ifs at found with boundary
          · cases found
            simp only [Bool.or_eq_true, decide_eq_true_eq] at boundary
            exact ⟨⟨isPrefix, .inr ⟨char, isChar, boundary⟩⟩, later, noEarlier⟩
          · obtain ⟨accepts, beyond, between⟩ := inductionHypothesis found
            refine ⟨accepts, by omega, fun other after before accepted => ?_⟩
            -- before the place, at it, in the marker there, or after it
            obtain less | rfl | more := Nat.lt_trichotomy other place
            · exact noEarlier other after less accepted
            · obtain isEnd' | ⟨char', isChar', boundary'⟩ := accepted.2
              · exact isEnd isEnd'
              · rw [isChar] at isChar'
                cases isChar'
                simp [boundary'] at boundary
            · have apart := add_six_le_of_markers isPrefix accepted.1 more
              exact between other apart before accepted

/-- The scan ends at the parenthesis that closes everything open. -/
theorem findEnd_eq {depth : ℕ} {commented : Bool} {word inner : List Char}
    (closes : Closes depth (brackets (lex commented word (inner ++ [bracketChar false]))))
    (code : commentAfter commented inner = false) (after : List Char) (index : ℕ) :
    findEnd depth commented (inner ++ bracketChar false :: after) index = some (index + inner.length + 1) := by
  induction inner generalizing depth commented word index with
  | nil =>
    have inCode : commented = false := code
    subst inCode
    simp only [List.nil_append, lex_bracket, lex, brackets_append, brackets_flush, brackets_cons_bracket,
      Closes] at closes
    obtain ⟨isOne, -⟩ | ⟨-, closes⟩ := closes
    · subst isOne
      simp [findEnd, bracketChar]
    · cases closes
  | cons char inner inductionHypothesis =>
    have position : index + (char :: inner).length + 1 = index + 1 + inner.length + 1 := by
      rw [List.length_cons]
      omega
    rw [position]
    cases commented with
    | true => exact inductionHypothesis closes code _
    | false =>
      simp only [commentAfter] at code
      simp only [List.cons_append, lex] at closes
      simp only [List.cons_append, findEnd]
      by_cases comment : char = ';'
      · simp only [comment, if_true, brackets_append, brackets_flush, List.nil_append] at closes ⊢
        exact inductionHypothesis closes (by simpa [comment] using code) _
      have code' : commentAfter false inner = false := by simpa [comment] using code
      by_cases left : char = '('
      · simp only [left, if_true, brackets_append, brackets_flush, brackets_cons_bracket, Closes,
          List.nil_append, if_neg (show ¬ '(' = ';' by decide)] at closes ⊢
        exact_mod_cast inductionHypothesis closes code' _
      by_cases right : char = ')'
      · simp only [right, if_true, brackets_append, brackets_flush, brackets_cons_bracket, Closes,
          List.nil_append, if_neg (show ¬ ')' = ';' by decide), if_neg (show ¬ ')' = '(' by decide)] at closes ⊢
        obtain ⟨-, isEmpty⟩ | ⟨two, closes⟩ := closes
        · -- the last parenthesis is still to come
          rw [lex_append_bracket false [] inner [] false code'] at isEmpty
          simp at isEmpty
        · have step := inductionHypothesis closes code' (index + 1)
          rw [Nat.cast_sub (by omega), Nat.cast_one] at step
          rw [if_neg (by omega), if_neg (by omega)]
          exact step
      · simp only [comment, left, right, if_false] at closes ⊢
        by_cases space : isSpace char = true
        · simp only [space, if_true, brackets_append, brackets_flush, List.nil_append] at closes
          exact inductionHypothesis closes code' _
        · simp only [space] at closes
          exact inductionHypothesis closes code' _

theorem findEnd_delimited {piece : List Char} {items : List SExpression} (delimited : Delimited piece)
    (parses : Parses piece (.list items)) (after : List Char) (index : ℕ) :
    findEnd 0 false (piece ++ after) index = some (index + piece.length) := by
  have closes := SExpression.closes_list items
  rw [← parses] at closes
  obtain ⟨inner, rfl, code⟩ := delimited
  have scan := @findEnd_eq 0 false [] (bracketChar true :: inner) closes (by rwa [commentAfter_bracket]) after index
  simpa [Nat.add_assoc] using scan

/-! ## The text without spaces around it -/

theorem lex_append_spaces {commented : Bool} {word text spaces : List Char}
    (blank : ∀ char ∈ spaces, isSpace char = true) :
    lex commented word (text ++ spaces) = lex commented word text := by
  have onlySpaces : ∀ commented word, lex commented word spaces = flush word := by
    intro commented word
    induction spaces generalizing commented word with
    | nil => cases commented <;> rfl
    | cons char spaces inductionHypothesis =>
      have isBlank := blank char (by simp)
      have rest := inductionHypothesis fun other member => blank other (by simp [member])
      cases commented with
      | true => exact rest _ _
      | false =>
        have comment : char ≠ ';' := by rintro rfl; exact absurd isBlank (by decide)
        have left : char ≠ '(' := by rintro rfl; exact absurd isBlank (by decide)
        have right : char ≠ ')' := by rintro rfl; exact absurd isBlank (by decide)
        simp [lex, comment, left, right, isBlank, rest, flush]
  induction text generalizing commented word with
  | nil => simpa [lex] using onlySpaces commented word
  | cons char text inductionHypothesis =>
    cases commented <;> simp [lex, inductionHypothesis]

theorem weight_spaces {commented : Bool} {spaces : List Char} (blank : ∀ char ∈ spaces, isSpace char = true) :
    weight commented spaces = 0 := by
  rw [← lex_eq_nil_iff]
  have onlySpaces : lex commented [] ([] ++ spaces) = lex commented [] [] := lex_append_spaces blank
  simpa [lex, flush] using onlySpaces

theorem exists_strip (text : List Char) :
    ∃ before after, text = before ++ (strip text ++ after) ∧ (∀ char ∈ before, isSpace char = true) ∧
      (∀ char ∈ after, isSpace char = true) := by
  refine ⟨text.takeWhile isSpace, (text.dropWhile isSpace).rtakeWhile isSpace, ?_,
    fun char member => List.mem_takeWhile_imp member, fun char member => List.mem_rtakeWhile_imp member⟩
  rw [strip, List.rdropWhile_append_rtakeWhile, List.takeWhile_append_dropWhile]

theorem tokens_strip (text : List Char) : tokens (strip text) = tokens text := by
  obtain ⟨before, after, isText, beforeBlank, afterBlank⟩ := exists_strip text
  have notCommented : ∀ spaces : List Char, (∀ char ∈ spaces, isSpace char = true) →
      commentAfter false spaces = false := by
    intro spaces blank
    induction spaces with
    | nil => rfl
    | cons char spaces inductionHypothesis =>
      have comment : char ≠ ';' := by rintro rfl; exact absurd (blank ';' (by simp)) (by decide)
      have rest := inductionHypothesis fun other member => blank other (by simp [member])
      simpa [commentAfter, comment] using rest
  have cut := @lex_append_of_weight false before (weight_spaces beforeBlank) (strip text ++ after)
  rw [notCommented before beforeBlank, lex_append_spaces afterBlank, ← isText] at cut
  exact cut.symm

end CutPlan.Controller
