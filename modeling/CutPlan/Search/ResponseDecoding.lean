import CutPlan.Search.ResponseParser

/-! # Responses are decoded as they were encoded

The scanner on the texts of the grammar.
-/

namespace CutPlan.Search

open CutPlan.Lib.Json

theorem ok_bind {ε α β : Type} (value : α) (next : α → Except ε β) :
    ((.ok value : Except ε α) >>= next) = next value :=
  rfl

theorem bind_eq_ok {ε α β : Type} {scanned : Except ε α} {next : α → Except ε β} {value : β} :
    scanned >>= next = .ok value ↔ ∃ middle, scanned = .ok middle ∧ next middle = .ok value := by
  cases scanned with
  | error error => simp [bind, Except.bind]
  | ok middle => simp [bind, Except.bind]

/-! ## Whitespace and punctuation -/

theorem isSpaceByte_of_mem {byte : UInt8} (isWhitespace : byte ∈ [0x20, 0x09, 0x0A, 0x0D]) :
    isSpaceByte byte = true := by
  simp only [List.mem_cons, List.not_mem_nil, or_false] at isWhitespace
  obtain rfl | rfl | rfl | rfl := isWhitespace <;> decide

@[simp] theorem skipJsonWhitespace_append (space : Whitespace) (text : Text) :
    skipJsonWhitespace (space.1 ++ text) = skipJsonWhitespace text := by
  obtain ⟨bytes, areSpace⟩ := space
  induction bytes with
  | nil => rfl
  | cons byte bytes inductionHypothesis =>
    rw [List.forall_mem_cons] at areSpace
    have isSpaceByte := isSpaceByte_of_mem areSpace.1
    rw [skipJsonWhitespace, List.cons_append, List.dropWhile_cons_of_pos isSpaceByte]
    exact inductionHypothesis areSpace.2

theorem skipJsonWhitespace_cons {byte : UInt8} (notSpace : isSpaceByte byte = false) (text : Text) :
    skipJsonWhitespace (byte :: text) = byte :: text :=
  List.dropWhile_cons_of_neg (by simp [notSpace])

@[simp] theorem skipJsonWhitespace_idem (text : Text) :
    skipJsonWhitespace (skipJsonWhitespace text) = skipJsonWhitespace text := by
  induction text with
  | nil => rfl
  | cons byte text inductionHypothesis =>
    cases space : isSpaceByte byte with
    | true =>
      have skips : skipJsonWhitespace (byte :: text) = skipJsonWhitespace text :=
        List.dropWhile_cons_of_pos space
      rw [skips]
      exact inductionHypothesis
    | false => rw [skipJsonWhitespace_cons space, skipJsonWhitespace_cons space]

theorem parseSeparator_comma (close : UInt8) (error : String) (space : Whitespace) (text : Text) :
    parseSeparator close error (space.1 ++ ascii ',' :: text) = .ok (.comma, text) := by
  rw [parseSeparator, skipJsonWhitespace_append, skipJsonWhitespace_cons (by decide)]
  rfl

theorem parseSeparator_close (close : UInt8) (notSpace : isSpaceByte close = false)
    (notComma : close ≠ ascii ',') (error : String) (space : Whitespace) (text : Text) :
    parseSeparator close error (space.1 ++ close :: text) = .ok (.close, text) := by
  rw [parseSeparator, skipJsonWhitespace_append, skipJsonWhitespace_cons notSpace]
  simp [notComma]

theorem parseColon_append (error : String) (space : Whitespace) (text : Text) :
    parseColon error (space.1 ++ ascii ':' :: text) = .ok text := by
  rw [parseColon, skipJsonWhitespace_append, skipJsonWhitespace_cons (by decide)]
  rfl

theorem parseEmpty_close (close : UInt8) (notSpace : isSpaceByte close = false) (space : Whitespace)
    (text : Text) : parseEmpty close (space.1 ++ close :: text) = some text := by
  rw [parseEmpty, skipJsonWhitespace_append, skipJsonWhitespace_cons notSpace]
  simp

theorem parseEmpty_none {close byte : UInt8} {text rest : Text}
    (starts : skipJsonWhitespace text = byte :: rest) (notClose : byte ≠ close) :
    parseEmpty close text = none := by
  rw [parseEmpty, starts]
  simp [notClose]

theorem parseOpen_append (error : String) (space : Whitespace) (text : Text) :
    parseOpen error (space.1 ++ ascii '[' :: text) = .ok text := by
  rw [parseOpen, skipJsonWhitespace_append, skipJsonWhitespace_cons (by decide)]
  rfl

/-! ## Strings -/

/-- What the scanner makes of a piece. -/
def scannedByte : StringPiece → UInt8
  | .raw byte => byte.1
  | .short escape => escape.value
  | .unicode _ _ _ _ => ascii '?'

def scanned (pieces : List StringPiece) : Text := pieces.map scannedByte

theorem unescape_letter (escape : ShortEscape) : unescape escape.letter = some escape.value := by
  cases escape <;> decide

theorem parseStringBytes_quote (result text : Text) :
    parseStringBytes result (ascii '"' :: text) = .ok (result, text) := by
  rw [parseStringBytes.eq_def]
  simp

theorem parseStringBytes_raw (byte : RawByte) (result text : Text) :
    parseStringBytes result (byte.1 :: text) = parseStringBytes (result ++ [byte.1]) text := by
  rw [parseStringBytes.eq_def]
  simp only [byte.2.2.1, byte.2.2.2, ne_eq, not_false_eq_true, if_true, if_false]

theorem parseStringBytes_short (escape : ShortEscape) (result text : Text) :
    parseStringBytes result (ascii '\\' :: escape.letter :: text) =
      parseStringBytes (result ++ [escape.value]) text := by
  rw [parseStringBytes.eq_def]
  simp only [show ascii '\\' ≠ ascii '"' by decide, if_false, ne_eq, not_true_eq_false, unescape_letter]

theorem parseStringBytes_unicode (first second third fourth : UInt8) (result text : Text) :
    parseStringBytes result (ascii '\\' :: ascii 'u' :: first :: second :: third :: fourth :: text) =
      parseStringBytes (result ++ [ascii '?']) text := by
  rw [parseStringBytes.eq_def]
  simp only [show ascii '\\' ≠ ascii '"' by decide, if_false, ne_eq, not_true_eq_false,
    show unescape (ascii 'u') = none by decide, if_true]

theorem parseStringBytes_append (pieces : List StringPiece) (result text : Text) :
    parseStringBytes result (pieces.flatMap StringPiece.text ++ ascii '"' :: text) =
      .ok (result ++ scanned pieces, text) := by
  induction pieces generalizing result with
  | nil => simp [parseStringBytes_quote, scanned]
  | cons piece pieces inductionHypothesis =>
    rw [List.flatMap_cons, List.append_assoc]
    cases piece with
    | raw byte =>
      rw [StringPiece.text, List.singleton_append, parseStringBytes_raw, inductionHypothesis]
      simp [scanned, scannedByte]
    | short escape =>
      rw [StringPiece.text, List.cons_append, List.singleton_append, parseStringBytes_short,
        inductionHypothesis]
      simp [scanned, scannedByte]
    | unicode first second third fourth =>
      rw [StringPiece.text]
      simp only [List.cons_append, List.nil_append]
      rw [parseStringBytes_unicode, inductionHypothesis]
      simp [scanned, scannedByte]

theorem parseJsonString_quoted (space : Whitespace) (pieces : List StringPiece) (text : Text) :
    parseJsonString (space.1 ++ (quoted pieces ++ text)) = .ok (scanned pieces, text) := by
  rw [parseJsonString, skipJsonWhitespace_append, quoted, List.append_assoc, List.cons_append,
    skipJsonWhitespace_cons (by decide)]
  simpa using parseStringBytes_append pieces [] text

@[simp] theorem parseJsonString_skip (text : Text) :
    parseJsonString (skipJsonWhitespace text) = parseJsonString text := by
  rw [parseJsonString, skipJsonWhitespace_idem]
  rfl

theorem scanned_of_plain {pieces : List StringPiece} (plain : Plain pieces) :
    scanned pieces = decode pieces := by
  induction pieces with
  | nil => rfl
  | cons piece pieces inductionHypothesis =>
    rw [Plain, List.forall_mem_cons] at plain
    rw [decode_of_plain _ plain.1, ← inductionHypothesis plain.2]
    cases piece with
    | raw byte => rfl
    | short escape => rfl
    | unicode first second third fourth => cases plain.1

/-- A name without question marks is only scanned where there are no unicode escapes. -/
theorem decode_of_scanned {pieces : List StringPiece} {name : Text} (isScanned : scanned pieces = name)
    (noMark : ascii '?' ∉ name) : decode pieces = name := by
  rw [← isScanned]
  refine (scanned_of_plain fun piece isPiece => ?_).symm
  cases piece with
  | raw byte => rfl
  | short escape => rfl
  | unicode first second third fourth =>
    exact absurd (isScanned ▸ List.mem_map.mpr ⟨_, isPiece, rfl⟩) noMark

/-! ## Values that are skipped -/

/-- What a value is followed by. -/
def Delimited (text : Text) : Prop := ∀ byte ∈ text.head?, endsScalar byte = true

theorem endsScalar_of_isSpaceByte {byte : UInt8} (space : isSpaceByte byte = true) : endsScalar byte = true := by
  simp [endsScalar, space]

theorem delimited_append (space : Whitespace) {byte : UInt8} (ends : endsScalar byte = true) (text : Text) :
    Delimited (space.1 ++ byte :: text) := by
  obtain ⟨bytes, areSpace⟩ := space
  intro first isFirst
  cases bytes with
  | nil =>
    cases isFirst
    exact ends
  | cons _ bytes =>
    cases isFirst
    exact endsScalar_of_isSpaceByte (isSpaceByte_of_mem (areSpace first (List.mem_cons_self ..)))

/-- A number or a word. -/
structure IsScalar (text : Text) : Prop where
  nonempty : text ≠ []
  bytes : ∀ byte ∈ text, endsScalar byte = false ∧ byte ≠ ascii '"' ∧ byte ≠ ascii '[' ∧ byte ≠ ascii '{'

theorem isScalar_of_alphabet {text : Text} (nonempty : text ≠ [])
    (bytes : ∀ byte ∈ text, byte ∈ asciiText "0123456789+-.eEtrufalsn") : IsScalar text where
  nonempty := nonempty
  bytes := by
    have alphabet : ∀ byte ∈ asciiText "0123456789+-.eEtrufalsn",
        endsScalar byte = false ∧ byte ≠ ascii '"' ∧ byte ≠ ascii '[' ∧ byte ≠ ascii '{' := by decide
    exact fun byte isByte => alphabet byte (bytes byte isByte)

theorem digits_subset : asciiText "0123456789" ⊆ asciiText "0123456789+-.eEtrufalsn" := by decide

theorem isScalar_number (number : NumberText) : IsScalar number.text := by
  obtain ⟨negative, ⟨integer, ⟨nonempty, digits⟩, _⟩, fraction, exponent⟩ := number
  apply isScalar_of_alphabet
  · simp [NumberText.text, nonempty]
  · simp only [NumberText.text, List.forall_mem_append]
    refine ⟨⟨⟨?_, fun byte isByte => digits_subset (digits byte isByte)⟩, ?_⟩, ?_⟩
    · cases negative
      · simp
      · simp [asciiText]
    · cases fraction with
      | none => simp
      | some fraction =>
        rw [List.forall_mem_cons]
        exact ⟨by decide, fun byte isByte => digits_subset (fraction.2.2 byte isByte)⟩
    · cases exponent with
      | none => simp
      | some exponent =>
        obtain ⟨⟨mark, isMark⟩, digits⟩ := exponent
        rw [List.forall_mem_append]
        refine ⟨?_, fun byte isByte => digits_subset (digits.2.2 byte isByte)⟩
        have marks : ∀ mark ∈ ["e", "E", "e+", "E+", "e-", "E-"].map asciiText,
            ∀ byte ∈ mark, byte ∈ asciiText "0123456789+-.eEtrufalsn" := by decide
        exact marks mark isMark

theorem isScalar_literal {text : Text} (isLiteral : text ∈ ["true", "false", "null"].map asciiText) :
    IsScalar text := by
  have literals : ∀ text ∈ ["true", "false", "null"].map asciiText,
      text ≠ [] ∧ ∀ byte ∈ text, byte ∈ asciiText "0123456789+-.eEtrufalsn" := by decide
  exact isScalar_of_alphabet (literals text isLiteral).1 (literals text isLiteral).2

theorem skipJsonValue_scalar {text : Text} (isScalar : IsScalar text) (fuel : ℕ) (space : Whitespace)
    {rest : Text} (delimited : Delimited rest) :
    skipJsonValue (fuel + 1) (space.1 ++ (text ++ rest)) = .ok rest := by
  obtain ⟨nonempty, bytes⟩ := isScalar
  cases text with
  | nil => exact absurd rfl nonempty
  | cons first text =>
    rw [List.forall_mem_cons] at bytes
    obtain ⟨⟨notEnd, notQuote, notArray, notObject⟩, others⟩ := bytes
    have notSpace : isSpaceByte first = false := by
      cases space : isSpaceByte first with
      | false => rfl
      | true =>
        rw [endsScalar_of_isSpaceByte space] at notEnd
        cases notEnd
    rw [skipJsonValue, skipJsonWhitespace_append, List.cons_append, skipJsonWhitespace_cons notSpace]
    simp only [notQuote, notArray, notObject, if_false, notEnd, Bool.false_eq_true]
    rw [List.dropWhile_append_of_pos fun byte isByte => by simp [(others byte isByte).1]]
    congr 1
    cases rest with
    | nil => rfl
    | cons byte rest => exact List.dropWhile_cons_of_neg (by simp [delimited byte rfl])

theorem skipElements_skip {text : Text} (nonempty : skipJsonWhitespace text ≠ []) (fuel : ℕ) :
    skipElements fuel (skipJsonWhitespace text) = skipElements fuel text := by
  have notEmpty : text ≠ [] := fun isEmpty => nonempty (by rw [isEmpty]; rfl)
  cases fuel with
  | zero => simp [skipElements]
  | succ fuel =>
    have same : skipJsonValue fuel (skipJsonWhitespace text) = skipJsonValue fuel text := by
      cases fuel with
      | zero => simp [skipJsonValue]
      | succ fuel => rw [skipJsonValue, skipJsonValue, skipJsonWhitespace_idem]
    rw [skipElements, skipElements, if_neg nonempty, if_neg notEmpty, same]

theorem skipMembers_skip {text : Text} (nonempty : skipJsonWhitespace text ≠ []) (fuel : ℕ) :
    skipMembers fuel (skipJsonWhitespace text) = skipMembers fuel text := by
  have notEmpty : text ≠ [] := fun isEmpty => nonempty (by rw [isEmpty]; rfl)
  cases fuel with
  | zero => simp [skipMembers]
  | succ fuel => rw [skipMembers, skipMembers, if_neg nonempty, if_neg notEmpty, parseJsonString_skip]

/-- A value is skipped up to what follows it. -/
def Skips (value : Text) : Prop :=
  ∀ fuel (space : Whitespace) rest, 2 * value.length ≤ fuel → Delimited rest →
    skipJsonValue fuel (space.1 ++ (value ++ rest)) = .ok rest

theorem skipElements_eq {first : Padded} {rest : List Padded}
    (skips : ∀ element ∈ first :: rest, Skips element.value) {fuel : ℕ}
    (enough : 2 * (commaSeparated ((first :: rest).map Padded.text)).length + 1 ≤ fuel) (text : Text) :
    skipElements fuel (commaSeparated ((first :: rest).map Padded.text) ++ ascii ']' :: text) = .ok text := by
  induction rest generalizing first fuel with
  | nil =>
    rw [List.map_cons, List.map_nil, commaSeparated_singleton, Padded.text] at enough ⊢
    simp only [List.length_append] at enough
    obtain ⟨fuel, rfl⟩ : ∃ less, fuel = less + 1 := ⟨fuel - 1, by omega⟩
    have skipsFirst := skips first (List.mem_cons_self ..) fuel first.before
      (first.after.1 ++ ascii ']' :: text) (by omega) (delimited_append _ (by decide) _)
    rw [skipElements, if_neg (by simp)]
    simp only [List.append_assoc, skipsFirst, ok_bind,
      parseSeparator_close (ascii ']') (by decide) (by decide)]
    rfl
  | cons second rest inductionHypothesis =>
    rw [List.map_cons, List.map_cons, commaSeparated_cons, Padded.text, ← List.map_cons] at enough ⊢
    simp only [List.length_append, List.length_cons] at enough
    obtain ⟨fuel, rfl⟩ : ∃ less, fuel = less + 1 := ⟨fuel - 1, by omega⟩
    rw [List.forall_mem_cons] at skips
    have skipsFirst := skips.1 fuel first.before
      (first.after.1 ++ ascii ',' :: (commaSeparated ((second :: rest).map Padded.text) ++ ascii ']' :: text))
      (by omega) (delimited_append _ (by decide) _)
    rw [skipElements, if_neg (by simp)]
    simp only [List.append_assoc, List.cons_append, skipsFirst, ok_bind, parseSeparator_comma]
    exact inductionHypothesis skips.2 (by omega)

theorem skipMembers_eq {first : Member} {rest : List Member}
    (skips : ∀ member ∈ first :: rest, Skips member.value.value) {fuel : ℕ}
    (enough : 2 * (commaSeparated ((first :: rest).map Member.text)).length + 1 ≤ fuel) (text : Text) :
    skipMembers fuel (commaSeparated ((first :: rest).map Member.text) ++ ascii '}' :: text) = .ok text := by
  induction rest generalizing first fuel with
  | nil =>
    rw [List.map_cons, List.map_nil, commaSeparated_singleton, Member.text, Padded.text] at enough ⊢
    simp only [List.length_append, List.length_cons] at enough
    obtain ⟨fuel, rfl⟩ : ∃ less, fuel = less + 1 := ⟨fuel - 1, by omega⟩
    have skipsFirst := skips first (List.mem_cons_self ..) fuel first.value.before
      (first.value.after.1 ++ ascii '}' :: text) (by omega) (delimited_append _ (by decide) _)
    rw [skipMembers, if_neg (by simp)]
    simp only [List.append_assoc, List.cons_append, parseJsonString_quoted, parseColon_append, skipsFirst,
      ok_bind, parseSeparator_close (ascii '}') (by decide) (by decide)]
    rfl
  | cons second rest inductionHypothesis =>
    rw [List.map_cons, List.map_cons, commaSeparated_cons, Member.text, Padded.text, ← List.map_cons]
      at enough ⊢
    simp only [List.length_append, List.length_cons] at enough
    obtain ⟨fuel, rfl⟩ : ∃ less, fuel = less + 1 := ⟨fuel - 1, by omega⟩
    rw [List.forall_mem_cons] at skips
    have skipsFirst := skips.1 fuel first.value.before
      (first.value.after.1 ++
        ascii ',' :: (commaSeparated ((second :: rest).map Member.text) ++ ascii '}' :: text))
      (by omega) (delimited_append _ (by decide) _)
    rw [skipMembers, if_neg (by simp)]
    simp only [List.append_assoc, List.cons_append, parseJsonString_quoted, parseColon_append, skipsFirst,
      ok_bind, parseSeparator_comma]
    exact inductionHypothesis skips.2 (by omega)

/-- What a value starts with is no whitespace and ends no value. -/
theorem exists_first (isValue : IsValue value) :
    ∃ byte rest, value = byte :: rest ∧ endsScalar byte = false := by
  have scalar : IsScalar value → ∃ byte rest, value = byte :: rest ∧ endsScalar byte = false := by
    rintro ⟨nonempty, bytes⟩
    cases value with
    | nil => exact absurd rfl nonempty
    | cons byte rest => exact ⟨byte, rest, rfl, (bytes byte (List.mem_cons_self ..)).1⟩
  cases isValue with
  | literal isLiteral => exact scalar (isScalar_literal isLiteral)
  | number number => exact scalar (isScalar_number number)
  | string pieces => exact ⟨_, _, rfl, by decide⟩
  | emptyArray space => exact ⟨_, _, rfl, by decide⟩
  | array values => exact ⟨_, _, rfl, by decide⟩
  | emptyObject space => exact ⟨_, _, rfl, by decide⟩
  | object values => exact ⟨_, _, rfl, by decide⟩

theorem notSpace_of_first {byte : UInt8} (notEnd : endsScalar byte = false) : isSpaceByte byte = false := by
  cases space : isSpaceByte byte with
  | false => rfl
  | true =>
    rw [endsScalar_of_isSpaceByte space] at notEnd
    cases notEnd

/-- What the first of several texts starts with is where the scanner stops. -/
theorem exists_start {first : Text} {space : Whitespace} {byte : UInt8} {firstRest : Text}
    (isText : first = space.1 ++ byte :: firstRest) (notEnd : endsScalar byte = false) (others : List Text)
    (rest : Text) :
    ∃ tail, skipJsonWhitespace (commaSeparated (first :: others) ++ rest) = byte :: tail := by
  obtain ⟨tail, startsWith⟩ := exists_commaSeparated first others
  rw [startsWith, isText]
  simp only [List.append_assoc, List.cons_append]
  rw [skipJsonWhitespace_append, skipJsonWhitespace_cons (notSpace_of_first notEnd)]
  exact ⟨_, rfl⟩

theorem exists_memberText (member : Member) :
    ∃ memberRest, member.text = member.before.1 ++ ascii '"' :: memberRest := by
  rw [Member.text, quoted]
  simp only [List.append_assoc, List.cons_append]
  exact ⟨_, rfl⟩

theorem skipJsonValue_string (pieces : List StringPiece) : Skips (quoted pieces) := by
  intro fuel space rest enough _
  obtain ⟨fuel, rfl⟩ : ∃ less, fuel = less + 1 := ⟨fuel - 1, by simp [quoted] at enough; omega⟩
  have parses := parseJsonString_quoted space pieces rest
  rw [← parseJsonString_skip, skipJsonWhitespace_append] at parses
  rw [skipJsonValue, skipJsonWhitespace_append]
  rw [quoted, List.cons_append, List.cons_append, skipJsonWhitespace_cons (by decide)] at parses ⊢
  simp only [if_true, parses]
  rfl

theorem IsValue.skips {value : Text} (isValue : IsValue value) : Skips value := by
  induction isValue with
  | literal isLiteral =>
    intro fuel space rest enough delimited
    have isScalar := isScalar_literal isLiteral
    have nonempty := List.length_pos_iff.mpr isScalar.nonempty
    obtain ⟨fuel, rfl⟩ : ∃ less, fuel = less + 1 := ⟨fuel - 1, by omega⟩
    exact skipJsonValue_scalar isScalar fuel space delimited
  | number number =>
    intro fuel space rest enough delimited
    have isScalar := isScalar_number number
    have nonempty := List.length_pos_iff.mpr isScalar.nonempty
    obtain ⟨fuel, rfl⟩ : ∃ less, fuel = less + 1 := ⟨fuel - 1, by omega⟩
    exact skipJsonValue_scalar isScalar fuel space delimited
  | string pieces => exact skipJsonValue_string pieces
  | emptyArray inner =>
    intro fuel space rest enough _
    simp only [List.length_append, List.length_cons] at enough
    obtain ⟨fuel, rfl⟩ : ∃ less, fuel = less + 1 := ⟨fuel - 1, by omega⟩
    rw [skipJsonValue, skipJsonWhitespace_append]
    simp only [List.cons_append, List.append_assoc, List.nil_append]
    rw [skipJsonWhitespace_cons (by decide)]
    simp only [show ascii '[' ≠ ascii '"' by decide, if_false, if_true,
      parseEmpty_close (ascii ']') (by decide)]
  | emptyObject inner =>
    intro fuel space rest enough _
    simp only [List.length_append, List.length_cons] at enough
    obtain ⟨fuel, rfl⟩ : ∃ less, fuel = less + 1 := ⟨fuel - 1, by omega⟩
    rw [skipJsonValue, skipJsonWhitespace_append]
    simp only [List.cons_append, List.append_assoc, List.nil_append]
    rw [skipJsonWhitespace_cons (by decide)]
    simp only [show ascii '{' ≠ ascii '"' by decide, show ascii '{' ≠ ascii '[' by decide, if_false, if_true,
      parseEmpty_close (ascii '}') (by decide)]
  | array values inductionHypothesis =>
    rename_i first others
    intro fuel space rest enough _
    simp only [List.length_append, List.length_cons] at enough
    obtain ⟨fuel, rfl⟩ : ∃ less, fuel = less + 1 := ⟨fuel - 1, by omega⟩
    obtain ⟨byte, valueRest, isFirst, notEnd⟩ := exists_first (values first (List.mem_cons_self ..))
    have isText : first.text = first.before.1 ++ byte :: (valueRest ++ first.after.1) := by
      rw [Padded.text, isFirst, List.append_assoc, List.cons_append]
    obtain ⟨tail, starts⟩ := exists_start isText notEnd (others.map Padded.text) (ascii ']' :: rest)
    rw [← List.map_cons] at starts
    have notClose : byte ≠ ascii ']' := by
      rintro rfl
      cases notEnd
    rw [skipJsonValue, skipJsonWhitespace_append]
    simp only [List.cons_append, List.append_assoc, List.nil_append]
    rw [skipJsonWhitespace_cons (by decide)]
    simp only [show ascii '[' ≠ ascii '"' by decide, if_false, if_true, parseEmpty_none starts notClose]
    rw [skipElements_skip (starts ▸ List.cons_ne_nil byte tail)]
    exact skipElements_eq inductionHypothesis (by omega) rest
  | object values inductionHypothesis =>
    rename_i first others
    intro fuel space rest enough _
    simp only [List.length_append, List.length_cons] at enough
    obtain ⟨fuel, rfl⟩ : ∃ less, fuel = less + 1 := ⟨fuel - 1, by omega⟩
    obtain ⟨memberRest, isText⟩ := exists_memberText first
    obtain ⟨tail, starts⟩ := exists_start isText (by decide) (others.map Member.text) (ascii '}' :: rest)
    rw [← List.map_cons] at starts
    rw [skipJsonValue, skipJsonWhitespace_append]
    simp only [List.cons_append, List.append_assoc, List.nil_append]
    rw [skipJsonWhitespace_cons (by decide)]
    simp only [show ascii '{' ≠ ascii '"' by decide, show ascii '{' ≠ ascii '[' by decide, if_false, if_true,
      parseEmpty_none starts (show ascii '"' ≠ ascii '}' by decide)]
    rw [skipMembers_skip (starts ▸ List.cons_ne_nil (ascii '"') tail)]
    exact skipMembers_eq inductionHypothesis (by omega) rest

end CutPlan.Search
