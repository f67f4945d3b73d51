import CutPlan.Search.ResponseDecoding
import CutPlan.Search.ScorerJson

/-! # Strings and numbers of the scorer's JSON parser

Whitespace, strings and numbers are read as the grammar has them, and nothing else is.
-/

namespace CutPlan.Search.JsonParser

open CutPlan.Lib CutPlan.Lib.Json

theorem fail_ne_ok {α : Type} {message : String} {rest : Text} {value : α} :
    (fail message rest : Except Failure α) ≠ .ok value :=
  nofun

/-! ## Whitespace -/

theorem isWhitespace_iff (byte : UInt8) : isWhitespace byte = true ↔ byte ∈ [0x20, 0x09, 0x0A, 0x0D] := by
  simp only [isWhitespace, Bool.or_eq_true, decide_eq_true_eq, List.mem_cons, List.not_mem_nil, or_false]
  tauto

@[simp] theorem skipWhitespace_append (space : Whitespace) (text : Text) :
    skipWhitespace (space.1 ++ text) = skipWhitespace text := by
  obtain ⟨bytes, areSpace⟩ := space
  induction bytes with
  | nil => rfl
  | cons byte bytes inductionHypothesis =>
    rw [List.forall_mem_cons] at areSpace
    rw [skipWhitespace, List.cons_append, List.dropWhile_cons_of_pos ((isWhitespace_iff byte).mpr areSpace.1)]
    exact inductionHypothesis areSpace.2

theorem skipWhitespace_cons {byte : UInt8} (notSpace : isWhitespace byte = false) (text : Text) :
    skipWhitespace (byte :: text) = byte :: text :=
  List.dropWhile_cons_of_neg (by simp [notSpace])

/-- What is skipped is whitespace. -/
theorem exists_skipWhitespace (text : Text) : ∃ space : Whitespace, text = space.1 ++ skipWhitespace text := by
  refine ⟨⟨text.takeWhile isWhitespace, fun byte isByte => ?_⟩, List.takeWhile_append_dropWhile.symm⟩
  exact (isWhitespace_iff byte).mp (List.mem_takeWhile_imp isByte)

@[simp] theorem skipWhitespace_idem (text : Text) : skipWhitespace (skipWhitespace text) = skipWhitespace text := by
  obtain ⟨space, isSkipped⟩ := exists_skipWhitespace text
  calc skipWhitespace (skipWhitespace text) = skipWhitespace (space.1 ++ skipWhitespace text) :=
        (skipWhitespace_append space _).symm
    _ = skipWhitespace text := by rw [← isSkipped]

theorem skipWhitespace_space (space : Whitespace) : skipWhitespace space.1 = [] := by
  have skipped := skipWhitespace_append space []
  rwa [List.append_nil] at skipped

/-! ## Escapes -/

theorem hexValue_digit : ∀ digit : HexDigit, hexValue digit.1 = some digit.value := by
  rw [Subtype.forall]
  exact forall_byte (by decide +kernel)

theorem mem_hexDigits_of_hexValue : ∀ ch : UInt8, hexValue ch ≠ none → ch ∈ hexDigits :=
  forall_byte (by decide +kernel)

theorem exists_hexDigit {ch : UInt8} {value : ℕ} (isValue : hexValue ch = some value) :
    ∃ digit : HexDigit, digit.1 = ch ∧ digit.value = value := by
  have isDigit := mem_hexDigits_of_hexValue ch (by simp [isValue])
  refine ⟨⟨ch, isDigit⟩, rfl, ?_⟩
  have sameValue := hexValue_digit ⟨ch, isDigit⟩
  rw [isValue, Option.some_inj] at sameValue
  exact sameValue.symm

theorem parseHexQuad_digits {piece : StringPiece} {unit : ℕ} (isUnit : piece.codeUnit = some unit) (text : Text) :
    ∃ digits, piece.text = ascii '\\' :: ascii 'u' :: digits ∧ parseHexQuad (digits ++ text) = .ok (unit, text) := by
  cases piece with
  | raw byte => cases isUnit
  | short escape => cases isUnit
  | unicode first second third fourth =>
    refine ⟨[first.1, second.1, third.1, fourth.1], rfl, ?_⟩
    rw [StringPiece.codeUnit, Option.some_inj] at isUnit
    simp only [parseHexQuad, List.cons_append, List.nil_append, hexValue_digit, ← isUnit]
    congr 2
    ring

theorem parseHexQuad_sound {text rest : Text} {unit : ℕ} (reads : parseHexQuad text = .ok (unit, rest)) :
    ∃ piece : StringPiece, piece.codeUnit = some unit ∧ ascii '\\' :: ascii 'u' :: text = piece.text ++ rest := by
  unfold parseHexQuad at reads
  split at reads
  case h_1 first second third fourth text =>
    split at reads
    case h_5 isFirst isSecond isThird isFourth =>
      obtain ⟨first, rfl, rfl⟩ := exists_hexDigit isFirst
      obtain ⟨second, rfl, rfl⟩ := exists_hexDigit isSecond
      obtain ⟨third, rfl, rfl⟩ := exists_hexDigit isThird
      obtain ⟨fourth, rfl, rfl⟩ := exists_hexDigit isFourth
      cases reads
      refine ⟨.unicode first second third fourth, ?_, rfl⟩
      rw [StringPiece.codeUnit, Option.some_inj]
      ring
    all_goals exact absurd reads fail_ne_ok
  case h_2 => exact absurd reads fail_ne_ok

/-- Four digits make sixteen bits. -/
theorem codeUnit_lt {piece : StringPiece} {unit : ℕ} (isUnit : piece.codeUnit = some unit) : unit < 0x10000 := by
  cases piece with
  | raw byte => cases isUnit
  | short escape => cases isUnit
  | unicode first second third fourth =>
    have small : ∀ digit : HexDigit, digit.value < 0x10 := by
      rw [Subtype.forall]
      exact forall_byte (by decide +kernel)
    have firstSmall := small first
    have secondSmall := small second
    have thirdSmall := small third
    have fourthSmall := small fourth
    rw [StringPiece.codeUnit, Option.some_inj] at isUnit
    omega

theorem appendUtf8_eq {code : ℕ} (inRange : code < 0x110000) : appendUtf8 code = utf8 code := by
  have low : ∀ value, value &&& 0x3F = value % 0x40 := fun value => Nat.and_two_pow_sub_one_eq_mod value 6
  have continuation : ∀ value < 0x40, 0x80 ||| value = 0x80 + value := by decide
  have twoBytes : ∀ value < 0x20, 0xC0 ||| value = 0xC0 + value := by decide
  have threeBytes : ∀ value < 0x10, 0xE0 ||| value = 0xE0 + value := by decide
  have fourBytes : ∀ value < 0x08, 0xF0 ||| value = 0xF0 + value := by decide
  have continues : ∀ value, 0x80 ||| value % 0x40 = 0x80 + value % 0x40 :=
    fun value => continuation _ (Nat.mod_lt _ (by decide))
  unfold appendUtf8 utf8
  simp only [low, continues, Nat.shiftRight_eq_div_pow, Nat.reducePow]
  split_ifs <;> first | omega | rfl | skip
  · rw [twoBytes (code / 64) (by omega)]
  · rw [threeBytes (code / 4096) (by omega)]
  · rw [fourBytes (code / 262144) (by omega)]

theorem utf8_of_unit {piece : StringPiece} {unit : ℕ} (isUnit : piece.codeUnit = some unit) :
    appendUtf8 unit = utf8 unit :=
  appendUtf8_eq ((codeUnit_lt isUnit).trans (by decide))

theorem joinSurrogates_eq {high low : ℕ} (isHigh : 0xD800 ≤ high ∧ high ≤ 0xDBFF)
    (isLow : ¬ (low < 0xDC00 ∨ 0xDFFF < low)) :
    joinSurrogates high low = some (0x10000 + (high - 0xD800) <<< 10 + (low - 0xDC00)) := by
  rw [joinSurrogates, if_pos (by omega), Nat.shiftLeft_eq]

/-- What an escape is read as does not depend on what follows it. -/
structure Escapes (pieces : List StringPiece) (bytes : Text) : Prop where
  paired : ∀ {more}, Paired more → Paired (pieces ++ more)
  decodes : ∀ more, decode (pieces ++ more) = bytes ++ decode more

theorem escapes_plain {piece : StringPiece} (noUnit : piece.codeUnit = none) :
    Escapes [piece] (decode [piece]) where
  paired := .plain noUnit
  decodes := decode_plain noUnit

theorem escapes_unit {piece : StringPiece} {unit : ℕ} (isUnit : piece.codeUnit = some unit)
    (alone : ¬ IsSurrogate unit) : Escapes [piece] (utf8 unit) where
  paired := .unit isUnit alone
  decodes := decode_unit isUnit alone

theorem escapes_pair {first second : StringPiece} {high low code : ℕ} (isHigh : first.codeUnit = some high)
    (isLow : second.codeUnit = some low) (joined : joinSurrogates high low = some code) :
    Escapes [first, second] (utf8 code) where
  paired := .pair isHigh isLow joined
  decodes := decode_pair isHigh isLow joined

theorem parseUnicodeEscape_sound {text rest bytes : Text} (reads : parseUnicodeEscape text = .ok (bytes, rest)) :
    ∃ pieces, Escapes pieces bytes ∧ ascii '\\' :: ascii 'u' :: text = pieces.flatMap StringPiece.text ++ rest := by
  rw [parseUnicodeEscape] at reads
  obtain ⟨⟨unit, middle⟩, readsUnit, reads⟩ := bind_eq_ok.mp reads
  obtain ⟨piece, isUnit, isText⟩ := parseHexQuad_sound readsUnit
  simp only at reads
  split at reads
  case isTrue isHigh =>
    split at reads
    case h_1 backslash letter middle =>
      split at reads
      case isTrue => exact absurd reads fail_ne_ok
      case isFalse isEscape =>
        rw [not_or, not_not, not_not] at isEscape
        obtain ⟨rfl, rfl⟩ := isEscape
        obtain ⟨⟨low, after⟩, readsLow, reads⟩ := bind_eq_ok.mp reads
        obtain ⟨second, isLowUnit, isLowText⟩ := parseHexQuad_sound readsLow
        split at reads
        case isTrue => exact absurd reads fail_ne_ok
        case isFalse isLow =>
          have joined := joinSurrogates_eq isHigh isLow
          simp only [pure, Except.pure, Except.ok.injEq, Prod.mk.injEq] at reads
          obtain ⟨rfl, rfl⟩ := reads
          refine ⟨[piece, second], ?_, ?_⟩
          · rw [appendUtf8_eq (by rw [Nat.shiftLeft_eq]; omega)]
            exact escapes_pair isUnit isLowUnit joined
          · simp [isText, isLowText]
    case h_2 => exact absurd reads fail_ne_ok
  case isFalse notHigh =>
    split at reads
    case isTrue => exact absurd reads fail_ne_ok
    case isFalse notLow =>
      cases reads
      refine ⟨[piece], ?_, by simp [isText]⟩
      rw [utf8_of_unit isUnit]
      apply escapes_unit isUnit
      intro surrogate
      rw [IsSurrogate] at surrogate
      omega

theorem exists_shortEscape : ∀ (escape value : UInt8), unescape escape = some value →
    ∃ short : ShortEscape, short.letter = escape ∧ short.value = value := by
  intro escape value isValue
  have letters : unescape escape ≠ none →
      ∃ short ∈ [ShortEscape.quote, .backslash, .slash, .backspace, .formFeed, .newline, .carriageReturn, .tab],
        short.letter = escape :=
    @forall_byte (fun escape => unescape escape ≠ none →
      ∃ short ∈ [ShortEscape.quote, .backslash, .slash, .backspace, .formFeed, .newline, .carriageReturn, .tab],
        short.letter = escape) (by decide +kernel) escape
  obtain ⟨short, _, rfl⟩ := letters (by simp [isValue])
  refine ⟨short, rfl, ?_⟩
  rw [unescape_letter, Option.some_inj] at isValue
  exact isValue

theorem parseEscape_sound {text rest bytes : Text} (reads : parseEscape text = .ok (bytes, rest)) :
    ∃ pieces, Escapes pieces bytes ∧ ascii '\\' :: text = pieces.flatMap StringPiece.text ++ rest := by
  cases text with
  | nil => exact absurd reads fail_ne_ok
  | cons escape text =>
    rw [parseEscape] at reads
    split at reads
    case h_1 value isValue =>
      obtain ⟨short, rfl, rfl⟩ := exists_shortEscape escape value isValue
      cases reads
      exact ⟨[.short short], escapes_plain rfl, rfl⟩
    case h_2 =>
      split at reads
      case isTrue isUnicode =>
        rw [isUnicode]
        exact parseUnicodeEscape_sound reads
      case isFalse => exact absurd reads fail_ne_ok

/-- An escape in a text of the grammar is read. -/
theorem parseUnicodeEscape_unit {piece : StringPiece} {unit : ℕ} (isUnit : piece.codeUnit = some unit)
    (alone : ¬ IsSurrogate unit) (text : Text) :
    ∃ digits, piece.text = ascii '\\' :: ascii 'u' :: digits ∧
      parseUnicodeEscape (digits ++ text) = .ok (utf8 unit, text) := by
  obtain ⟨digits, isText, reads⟩ := parseHexQuad_digits isUnit text
  refine ⟨digits, isText, ?_⟩
  rw [IsSurrogate] at alone
  rw [parseUnicodeEscape, reads, ok_bind]
  simp only
  rw [if_neg (by omega), if_neg (by omega), utf8_of_unit isUnit]
  rfl

theorem parseUnicodeEscape_pair {first second : StringPiece} {high low code : ℕ}
    (isHigh : first.codeUnit = some high) (isLow : second.codeUnit = some low)
    (joined : joinSurrogates high low = some code) (text : Text) :
    ∃ digits, first.text ++ second.text = ascii '\\' :: ascii 'u' :: digits ∧
      parseUnicodeEscape (digits ++ text) = .ok (utf8 code, text) := by
  obtain ⟨lowDigits, isLowText, readsLow⟩ := parseHexQuad_digits isLow text
  obtain ⟨digits, isText, reads⟩ := parseHexQuad_digits isHigh (ascii '\\' :: ascii 'u' :: lowDigits ++ text)
  refine ⟨digits ++ second.text, by rw [isText]; rfl, ?_⟩
  have inRange : 0xD800 ≤ high ∧ high ≤ 0xDBFF ∧ 0xDC00 ≤ low ∧ low ≤ 0xDFFF := by
    rw [joinSurrogates] at joined
    split at joined
    · omega
    · cases joined
  have sameCode := @joinSurrogates_eq high low (by omega) (by omega)
  rw [joined, Option.some_inj] at sameCode
  rw [isLowText, List.append_assoc, parseUnicodeEscape, reads, ok_bind]
  simp only [List.cons_append]
  rw [if_pos (by omega), if_neg (by simp), readsLow, ok_bind]
  simp only
  rw [if_neg (by omega), ← sameCode, appendUtf8_eq (by rw [sameCode, Nat.shiftLeft_eq]; omega)]
  rfl

/-! ## Strings -/

theorem parseStringBytes_sound {fuel : ℕ} {output text result rest : Text}
    (reads : parseStringBytes fuel output text = .ok (result, rest)) :
    ∃ pieces, Paired pieces ∧ text = pieces.flatMap StringPiece.text ++ ascii '"' :: rest ∧
      result = output ++ decode pieces := by
  induction fuel generalizing output text with
  | zero => exact absurd reads fail_ne_ok
  | succ fuel inductionHypothesis =>
    cases text with
    | nil => exact absurd reads fail_ne_ok
    | cons ch text =>
      rw [parseStringBytes] at reads
      split at reads
      case isTrue isQuote =>
        cases reads
        exact ⟨[], .nil, by simp [isQuote], by simp [decode]⟩
      case isFalse notQuote =>
        split at reads
        case isTrue => exact absurd reads fail_ne_ok
        case isFalse printable =>
          split at reads
          case isTrue notBackslash =>
            obtain ⟨pieces, paired, isText, isResult⟩ := inductionHypothesis reads
            refine ⟨.raw ⟨ch, UInt8.not_lt.mp printable, notQuote, notBackslash⟩ :: pieces, .plain rfl paired, ?_, ?_⟩
            · simp [isText, StringPiece.text]
            · simp [isResult, decode]
          case isFalse isBackslash =>
            obtain ⟨⟨bytes, middle⟩, readsEscape, reads⟩ := bind_eq_ok.mp reads
            obtain ⟨escaped, escapes, isEscapeText⟩ := parseEscape_sound readsEscape
            obtain ⟨pieces, paired, isText, isResult⟩ := inductionHypothesis reads
            refine ⟨escaped ++ pieces, escapes.paired paired, ?_, ?_⟩
            · rw [not_not.mp isBackslash, isEscapeText, isText, List.flatMap_append, List.append_assoc]
            · rw [isResult, escapes.decodes, List.append_assoc]

theorem raw_ge (byte : RawByte) : ¬ byte.1 < 0x20 := UInt8.not_lt.mpr byte.2.1

/-- The characters of an escape after its backslash are read at once. -/
theorem parseStringBytes_escape {escape output bytes rest : Text} {fuel : ℕ}
    (reads : parseEscape escape = .ok (bytes, rest)) :
    parseStringBytes (fuel + 1) output (ascii '\\' :: escape) = parseStringBytes fuel (output ++ bytes) rest := by
  rw [parseStringBytes, if_neg (by decide), if_neg (by decide), if_neg (by simp), reads]
  rfl

theorem parseStringBytes_complete {pieces : List StringPiece} (paired : Paired pieces) {fuel : ℕ} (output rest : Text)
    (enough : (pieces.flatMap StringPiece.text).length < fuel) :
    parseStringBytes fuel output (pieces.flatMap StringPiece.text ++ ascii '"' :: rest) =
      .ok (output ++ decode pieces, rest) := by
  -- Every escape takes one round of the loop and at least one byte of the text.
  obtain ⟨fuel, rfl⟩ : ∃ less, fuel = less + 1 := ⟨fuel - 1, by omega⟩
  induction paired generalizing fuel output with
  | nil => simp [parseStringBytes, decode]
  | @plain piece pieces noUnit paired inductionHypothesis =>
    rw [List.flatMap_cons, List.length_append] at enough
    rw [List.flatMap_cons, List.append_assoc, decode_plain noUnit, ← List.append_assoc output]
    cases piece with
    | raw byte =>
      rw [show (StringPiece.raw byte).text.length = 1 from rfl] at enough
      obtain ⟨fuel, rfl⟩ : ∃ less, fuel = less + 1 := ⟨fuel - 1, by omega⟩
      rw [StringPiece.text, List.singleton_append, parseStringBytes, if_neg byte.2.2.1, if_neg (raw_ge byte),
        if_pos byte.2.2.2]
      exact inductionHypothesis _ fuel (by omega)
    | short escape =>
      rw [show (StringPiece.short escape).text.length = 2 from rfl] at enough
      obtain ⟨fuel, rfl⟩ : ∃ less, fuel = less + 1 := ⟨fuel - 1, by omega⟩
      have readsEscape : parseEscape (escape.letter :: (pieces.flatMap StringPiece.text ++ ascii '"' :: rest)) =
          .ok ([escape.value], pieces.flatMap StringPiece.text ++ ascii '"' :: rest) := by
        rw [parseEscape, unescape_letter]
      rw [StringPiece.text, List.cons_append, List.singleton_append, parseStringBytes_escape readsEscape]
      exact inductionHypothesis _ fuel (by omega)
    | unicode first second third fourth => cases noUnit
  | @unit piece pieces unit isUnit alone paired inductionHypothesis =>
    rw [List.flatMap_cons, List.length_append] at enough
    rw [List.flatMap_cons, List.append_assoc, decode_unit isUnit alone, ← List.append_assoc output]
    obtain ⟨digits, isText, reads⟩ := parseUnicodeEscape_unit isUnit alone
      (pieces.flatMap StringPiece.text ++ ascii '"' :: rest)
    rw [isText, List.length_cons] at enough
    obtain ⟨fuel, rfl⟩ : ∃ less, fuel = less + 1 := ⟨fuel - 1, by omega⟩
    have readsEscape : parseEscape (ascii 'u' :: (digits ++ (pieces.flatMap StringPiece.text ++ ascii '"' :: rest))) =
        .ok (utf8 unit, pieces.flatMap StringPiece.text ++ ascii '"' :: rest) := reads
    rw [isText, List.cons_append, List.cons_append, parseStringBytes_escape readsEscape]
    exact inductionHypothesis _ fuel (by omega)
  | @pair first second pieces high low code isHigh isLow joined paired inductionHypothesis =>
    rw [List.flatMap_cons, List.flatMap_cons, ← List.append_assoc, List.length_append] at enough
    rw [List.flatMap_cons, List.flatMap_cons, ← List.append_assoc first.text, List.append_assoc,
      decode_pair isHigh isLow joined, ← List.append_assoc output]
    obtain ⟨digits, isText, reads⟩ := parseUnicodeEscape_pair isHigh isLow joined
      (pieces.flatMap StringPiece.text ++ ascii '"' :: rest)
    rw [isText, List.length_cons] at enough
    obtain ⟨fuel, rfl⟩ : ∃ less, fuel = less + 1 := ⟨fuel - 1, by omega⟩
    have readsEscape : parseEscape (ascii 'u' :: (digits ++ (pieces.flatMap StringPiece.text ++ ascii '"' :: rest))) =
        .ok (utf8 code, pieces.flatMap StringPiece.text ++ ascii '"' :: rest) := reads
    rw [isText, List.cons_append, List.cons_append, parseStringBytes_escape readsEscape]
    exact inductionHypothesis _ fuel (by omega)

theorem parseString_sound {text result rest : Text} (reads : parseString text = .ok (result, rest)) :
    ∃ pieces, Paired pieces ∧ text = quoted pieces ++ rest ∧ result = decode pieces := by
  cases text with
  | nil => exact absurd reads fail_ne_ok
  | cons ch text =>
    rw [parseString] at reads
    split at reads
    case isTrue isQuote =>
      obtain ⟨pieces, paired, isText, isResult⟩ := parseStringBytes_sound reads
      exact ⟨pieces, paired, by simp [isQuote, isText, quoted], isResult⟩
    case isFalse => exact absurd reads fail_ne_ok

theorem parseString_complete {pieces : List StringPiece} (paired : Paired pieces) (rest : Text) :
    parseString (quoted pieces ++ rest) = .ok (decode pieces, rest) := by
  have enough : (pieces.flatMap StringPiece.text).length <
      (pieces.flatMap StringPiece.text ++ ascii '"' :: rest).length + 1 := by
    rw [List.length_append]
    omega
  have reads := parseStringBytes_complete paired [] rest enough
  rw [quoted, List.append_assoc, List.cons_append, List.singleton_append, parseString, if_pos rfl, reads]
  rfl

/-! ## Numbers -/

/-- The double that a number stands for, if it is in range. -/
def doubleOf (number : NumberText) : Option ℚ := (toDouble number.magnitude).map (signed number.negative)

theorem isDigitByte_iff : ∀ byte, isDigitByte byte = true ↔ byte ∈ asciiText "0123456789" :=
  forall_byte (by decide +kernel)

/-- A run of digits ends here. -/
def NoDigit (text : Text) : Prop := ∀ byte ∈ text.head?, isDigitByte byte = false

theorem takeWhile_digits {digits rest : Text} (areDigits : ∀ byte ∈ digits, byte ∈ asciiText "0123456789")
    (noDigit : NoDigit rest) : (digits ++ rest).takeWhile isDigitByte = digits := by
  rw [List.takeWhile_append_of_pos fun byte isByte => (isDigitByte_iff byte).mpr (areDigits byte isByte)]
  cases rest with
  | nil => simp
  | cons byte rest => simp [noDigit byte rfl]

theorem dropWhile_digits {digits rest : Text} (areDigits : ∀ byte ∈ digits, byte ∈ asciiText "0123456789")
    (noDigit : NoDigit rest) : (digits ++ rest).dropWhile isDigitByte = rest := by
  rw [List.dropWhile_append_of_pos fun byte isByte => (isDigitByte_iff byte).mpr (areDigits byte isByte)]
  cases rest with
  | nil => simp
  | cons byte rest => simp [noDigit byte rfl]

theorem exists_dropWhile_digits {ch : UInt8} (isDigit : isDigitByte ch = true) (text : Text) :
    ∃ digits : { text : Text // IsDigits text }, ch :: text = digits.1 ++ text.dropWhile isDigitByte ∧
      digits.1.head? = some ch := by
  refine ⟨⟨ch :: text.takeWhile isDigitByte, by simp, ?_⟩, by simp, rfl⟩
  rw [List.forall_mem_cons]
  exact ⟨(isDigitByte_iff ch).mp isDigit, fun byte isByte => (isDigitByte_iff byte).mp (List.mem_takeWhile_imp isByte)⟩

theorem parseInteger_sound {text rest : Text} (reads : parseInteger text = .ok rest) :
    ∃ integer : IntegerText, text = integer.1 ++ rest := by
  cases text with
  | nil => exact absurd reads fail_ne_ok
  | cons ch text =>
    rw [parseInteger.eq_def] at reads
    simp only at reads
    split at reads
    case isTrue isZero =>
      subst isZero
      refine ⟨⟨[ascii '0'], by decide⟩, ?_⟩
      cases text with
      | nil =>
        cases reads
        rfl
      | cons next text =>
        simp only at reads
        split at reads
        · exact absurd reads fail_ne_ok
        · cases reads
          rfl
    case isFalse notZero =>
      split at reads
      case isTrue isDigit =>
        obtain ⟨digits, isText, isHead⟩ := exists_dropWhile_digits isDigit text
        cases reads
        refine ⟨⟨digits.1, digits.2, fun startsZero => ?_⟩, isText⟩
        rw [isHead, Option.some_inj] at startsZero
        exact absurd startsZero notZero
      case isFalse => exact absurd reads fail_ne_ok

theorem parseInteger_complete (integer : IntegerText) {rest : Text} (noDigit : NoDigit rest) :
    parseInteger (integer.1 ++ rest) = .ok rest := by
  obtain ⟨digits, ⟨nonempty, areDigits⟩, noLeadingZero⟩ := integer
  cases digits with
  | nil => exact absurd rfl nonempty
  | cons ch digits =>
    rw [List.forall_mem_cons] at areDigits
    rw [List.cons_append, parseInteger.eq_def]
    simp only
    split
    case isTrue isZero =>
      have alone := noLeadingZero (by rw [isZero]; rfl)
      rw [List.cons.injEq] at alone
      rw [alone.2, List.nil_append]
      cases rest with
      | nil => rfl
      | cons next rest => simp [noDigit next rfl]
    case isFalse =>
      rw [if_pos ((isDigitByte_iff ch).mpr areDigits.1), dropWhile_digits areDigits.2 noDigit]

theorem parseDigits_sound {error : String} {text rest : Text} (reads : parseDigits error text = .ok rest) :
    ∃ digits : { text : Text // IsDigits text }, text = digits.1 ++ rest := by
  cases text with
  | nil => exact absurd reads fail_ne_ok
  | cons ch text =>
    rw [parseDigits] at reads
    split at reads
    case isTrue isDigit =>
      obtain ⟨digits, isText, _⟩ := exists_dropWhile_digits isDigit text
      cases reads
      exact ⟨digits, isText⟩
    case isFalse => exact absurd reads fail_ne_ok

theorem parseDigits_complete (error : String) (digits : { text : Text // IsDigits text }) {rest : Text}
    (noDigit : NoDigit rest) : parseDigits error (digits.1 ++ rest) = .ok rest := by
  obtain ⟨digits, nonempty, areDigits⟩ := digits
  cases digits with
  | nil => exact absurd rfl nonempty
  | cons ch digits =>
    rw [List.forall_mem_cons] at areDigits
    rw [List.cons_append, parseDigits, if_pos ((isDigitByte_iff ch).mpr areDigits.1),
      dropWhile_digits areDigits.2 noDigit]

theorem parseFraction_sound {text rest : Text} (reads : parseFraction text = .ok rest) :
    ∃ fraction, text = fractionText fraction ++ rest := by
  cases text with
  | nil =>
    cases reads
    exact ⟨none, rfl⟩
  | cons ch text =>
    rw [parseFraction] at reads
    split at reads
    case isTrue isPoint =>
      obtain ⟨digits, isText⟩ := parseDigits_sound reads
      exact ⟨some digits, by rw [isPoint, isText]; rfl⟩
    case isFalse =>
      cases reads
      exact ⟨none, rfl⟩

theorem parseFraction_complete (fraction : Option { text : Text // IsDigits text }) {rest : Text}
    (noDigit : NoDigit rest) (noPoint : ∀ byte ∈ rest.head?, byte ≠ ascii '.') :
    parseFraction (fractionText fraction ++ rest) = .ok rest := by
  cases fraction with
  | some digits =>
    rw [fractionText, List.cons_append, parseFraction, if_pos rfl]
    exact parseDigits_complete _ digits noDigit
  | none =>
    cases rest with
    | nil => rfl
    | cons byte rest => exact if_neg (noPoint byte rfl)

theorem skipSign_digits (digits : { text : Text // IsDigits text }) (rest : Text) :
    skipSign (digits.1 ++ rest) = digits.1 ++ rest := by
  obtain ⟨digits, nonempty, areDigits⟩ := digits
  cases digits with
  | nil => exact absurd rfl nonempty
  | cons ch digits =>
    have noSign : ∀ byte ∈ asciiText "0123456789", ¬ (byte = ascii '+' ∨ byte = ascii '-') := by decide
    exact if_neg (noSign ch (areDigits ch List.mem_cons_self))

/-- A mark is a letter and at most one sign. -/
theorem mark_cases (mark : ExponentMark) : ∃ letter, (letter = ascii 'e' ∨ letter = ascii 'E') ∧
    (mark.1 = [letter] ∨ mark.1 = [letter, ascii '+'] ∨ mark.1 = [letter, ascii '-']) := by
  obtain ⟨mark, isMark⟩ := mark
  simp only [List.map_cons, List.map_nil, List.mem_cons, List.not_mem_nil, or_false] at isMark
  obtain rfl | rfl | rfl | rfl | rfl | rfl := isMark
  · exact ⟨ascii 'e', .inl rfl, .inl rfl⟩
  · exact ⟨ascii 'E', .inr rfl, .inl rfl⟩
  · exact ⟨ascii 'e', .inl rfl, .inr (.inl rfl)⟩
  · exact ⟨ascii 'E', .inr rfl, .inr (.inl rfl)⟩
  · exact ⟨ascii 'e', .inl rfl, .inr (.inr rfl)⟩
  · exact ⟨ascii 'E', .inr rfl, .inr (.inr rfl)⟩

theorem exists_mark {letter : UInt8} (isLetter : letter = ascii 'e' ∨ letter = ascii 'E') (text : Text) :
    ∃ mark : ExponentMark, letter :: text = mark.1 ++ skipSign text := by
  have marks : ∀ sign ∈ [[], [ascii '+'], [ascii '-']],
      letter :: sign ∈ ["e", "E", "e+", "E+", "e-", "E-"].map asciiText := by
    obtain rfl | rfl := isLetter <;> decide
  cases text with
  | nil => exact ⟨⟨[letter], marks [] (by decide)⟩, rfl⟩
  | cons ch text =>
    rw [skipSign]
    split
    case isTrue isSign =>
      refine ⟨⟨[letter, ch], marks [ch] ?_⟩, rfl⟩
      obtain rfl | rfl := isSign <;> decide
    case isFalse => exact ⟨⟨[letter], marks [] (by decide)⟩, rfl⟩

theorem parseExponent_sound {text rest : Text} (reads : parseExponent text = .ok rest) :
    ∃ exponent, text = exponentText exponent ++ rest := by
  cases text with
  | nil =>
    cases reads
    exact ⟨none, rfl⟩
  | cons ch text =>
    rw [parseExponent] at reads
    split at reads
    case isTrue isLetter =>
      obtain ⟨mark, isMark⟩ := exists_mark isLetter text
      obtain ⟨digits, isText⟩ := parseDigits_sound reads
      exact ⟨some (mark, digits), by rw [isMark, isText, exponentText, List.append_assoc]⟩
    case isFalse =>
      cases reads
      exact ⟨none, rfl⟩

theorem skipSign_mark {mark : ExponentMark} (digits : { text : Text // IsDigits text }) (rest : Text) :
    ∃ letter tail, mark.1 ++ digits.1 ++ rest = letter :: tail ∧ (letter = ascii 'e' ∨ letter = ascii 'E') ∧
      skipSign tail = digits.1 ++ rest ∧
      (tail.head? = some (ascii '-') ↔ mark.1.getLast? = some (ascii '-')) := by
  obtain ⟨letter, isLetter, isMark⟩ := mark_cases mark
  have notMinus : letter ≠ ascii '-' := by obtain rfl | rfl := isLetter <;> decide
  obtain isMark | isMark | isMark := isMark
  · refine ⟨letter, digits.1 ++ rest, by rw [isMark]; rfl, isLetter, skipSign_digits digits rest, ?_⟩
    have noSign : ∀ byte ∈ asciiText "0123456789", byte ≠ ascii '-' := by decide
    obtain ⟨digits, nonempty, areDigits⟩ := digits
    cases digits with
    | nil => exact absurd rfl nonempty
    | cons ch digits => simp [isMark, notMinus, noSign ch (areDigits ch List.mem_cons_self)]
  · refine ⟨letter, ascii '+' :: (digits.1 ++ rest), by rw [isMark]; rfl, isLetter, rfl, ?_⟩
    simp [isMark]
  · refine ⟨letter, ascii '-' :: (digits.1 ++ rest), by rw [isMark]; rfl, isLetter, rfl, ?_⟩
    simp [isMark]

theorem parseExponent_complete (exponent : Option (ExponentMark × { text : Text // IsDigits text })) {rest : Text}
    (noDigit : NoDigit rest) (noLetter : ∀ byte ∈ rest.head?, ¬ (byte = ascii 'e' ∨ byte = ascii 'E')) :
    parseExponent (exponentText exponent ++ rest) = .ok rest := by
  cases exponent with
  | some exponent =>
    obtain ⟨letter, tail, isText, isLetter, isTail, _⟩ := @skipSign_mark exponent.1 exponent.2 rest
    rw [exponentText, isText, parseExponent, if_pos isLetter, isTail]
    exact parseDigits_complete _ exponent.2 noDigit
  | none =>
    cases rest with
    | nil => rfl
    | cons byte rest => exact if_neg (noLetter byte rfl)

/-- Nothing that could continue a number. -/
def Follows (text : Text) : Prop := ∀ byte ∈ text.head?, byte ∉ asciiText "0123456789.eE"

theorem follows_nil : Follows [] := nofun

theorem Follows.noDigit {text : Text} (follows : Follows text) : NoDigit text := by
  intro byte isHead
  have digits : ∀ byte ∈ asciiText "0123456789", byte ∈ asciiText "0123456789.eE" := by decide
  cases digit : isDigitByte byte with
  | false => rfl
  | true => exact absurd (digits byte ((isDigitByte_iff byte).mp digit)) (follows byte isHead)

theorem Follows.ne {text : Text} (follows : Follows text) {byte : UInt8} (isHead : byte ∈ text.head?) {other : UInt8}
    (continues : other ∈ asciiText "0123456789.eE") : byte ≠ other := by
  rintro rfl
  exact follows byte isHead continues

/-- After a fraction comes an exponent or the end. -/
theorem exponentText_head (exponent : Option (ExponentMark × { text : Text // IsDigits text })) {rest : Text}
    (follows : Follows rest) {byte : UInt8} (isHead : byte ∈ (exponentText exponent ++ rest).head?) :
    isDigitByte byte = false ∧ byte ≠ ascii '.' := by
  cases exponent with
  | none => exact ⟨follows.noDigit byte isHead, follows.ne isHead (by decide)⟩
  | some exponent =>
    obtain ⟨letter, tail, isText, isLetter, _⟩ := @skipSign_mark exponent.1 exponent.2 rest
    rw [exponentText, isText, List.head?_cons, Option.mem_some_iff] at isHead
    subst isHead
    obtain rfl | rfl := isLetter <;> decide

theorem fractionText_head (fraction : Option { text : Text // IsDigits text }) {rest : Text}
    (noDigit : NoDigit rest) : NoDigit (fractionText fraction ++ rest) := by
  cases fraction with
  | none => exact noDigit
  | some digits =>
    intro byte isHead
    rw [fractionText, List.cons_append, List.head?_cons, Option.mem_some_iff] at isHead
    subst isHead
    decide

theorem signText_append (negative : Bool) (integer : IntegerText) (rest : Text) :
    skipMinus (signText negative ++ (integer.1 ++ rest)) = integer.1 ++ rest ∧
      ((signText negative ++ (integer.1 ++ rest)).head? = some (ascii '-') ↔ negative = true) := by
  obtain ⟨digits, ⟨nonempty, areDigits⟩, _⟩ := integer
  cases negative with
  | true => exact ⟨rfl, by simp [signText]⟩
  | false =>
    cases digits with
    | nil => exact absurd rfl nonempty
    | cons ch digits =>
      have noSign : ∀ byte ∈ asciiText "0123456789", byte ≠ ascii '-' := by decide
      have notMinus := noSign ch (areDigits ch List.mem_cons_self)
      exact ⟨if_neg notMinus, by simp [signText, notMinus]⟩

theorem exists_sign (text : Text) : ∃ negative, text = signText negative ++ skipMinus text := by
  cases text with
  | nil => exact ⟨false, rfl⟩
  | cons ch text =>
    rw [skipMinus]
    split
    case isTrue isMinus => exact ⟨true, by rw [isMinus]; rfl⟩
    case isFalse => exact ⟨false, rfl⟩

theorem strtodExponent_text (number : NumberText) : strtodExponent (exponentText number.exponent) = number.exponentValue := by
  rw [NumberText.exponentValue]
  cases number.exponent with
  | none => rfl
  | some exponent =>
    obtain ⟨letter, tail, isText, _, isTail, isMinus⟩ := @skipSign_mark exponent.1 exponent.2 []
    rw [List.append_nil] at isText isTail
    simp only [exponentText, isText, strtodExponent, isTail, isMinus]

theorem fraction_scanned (number : NumberText) :
    let rest := fractionText number.fraction ++ exponentText number.exponent
    (if rest.head? = some (ascii '.') then rest.tail.takeWhile isDigitByte else []) = number.fractionDigits ∧
      (if rest.head? = some (ascii '.') then rest.tail.dropWhile isDigitByte else rest) =
        exponentText number.exponent := by
  have ends : ∀ byte ∈ (exponentText number.exponent).head?, isDigitByte byte = false ∧ byte ≠ ascii '.' := by
    intro byte isHead
    exact exponentText_head number.exponent follows_nil (by rwa [List.append_nil])
  rw [NumberText.fractionDigits]
  cases number.fraction with
  | none =>
    have noPoint : (exponentText number.exponent).head? ≠ some (ascii '.') := fun isPoint => (ends _ isPoint).2 rfl
    simp [fractionText, noPoint]
  | some digits =>
    have noDigit : NoDigit (exponentText number.exponent) := fun byte isHead => (ends byte isHead).1
    simp [fractionText, takeWhile_digits digits.2.2 noDigit, dropWhile_digits digits.2.2 noDigit]

theorem strtod_text (number : NumberText) : strtod number.text = doubleOf number := by
  have noDigit : NoDigit (fractionText number.fraction ++ exponentText number.exponent) := by
    apply fractionText_head
    intro byte isHead
    exact (exponentText_head number.exponent follows_nil (by rwa [List.append_nil])).1
  obtain ⟨unsigned, isNegative⟩ := signText_append number.negative number.integer
    (fractionText number.fraction ++ exponentText number.exponent)
  obtain ⟨isFraction, isExponent⟩ := fraction_scanned number
  have sameSign : decide ((signText number.negative ++ (number.integer.1 ++
      (fractionText number.fraction ++ exponentText number.exponent))).head? = some (ascii '-')) = number.negative := by
    rw [Bool.eq_iff_iff, decide_eq_true_eq]
    exact isNegative
  rw [NumberText.text_eq, strtod, doubleOf, NumberText.magnitude]
  simp only [unsigned, takeWhile_digits number.integer.2.1.2 noDigit, dropWhile_digits number.integer.2.1.2 noDigit,
    isFraction, isExponent, strtodExponent_text, sameSign]

theorem parseNumber_sound {text rest : Text} {value : JsonValue} (reads : parseNumber text = .ok (value, rest)) :
    ∃ number double, text = number.text ++ rest ∧ doubleOf number = some double ∧ value = .number double := by
  rw [parseNumber] at reads
  obtain ⟨afterInteger, readsInteger, reads⟩ := bind_eq_ok.mp reads
  obtain ⟨afterFraction, readsFraction, reads⟩ := bind_eq_ok.mp reads
  obtain ⟨afterExponent, readsExponent, reads⟩ := bind_eq_ok.mp reads
  obtain ⟨negative, isSign⟩ := exists_sign text
  obtain ⟨integer, isInteger⟩ := parseInteger_sound readsInteger
  obtain ⟨fraction, isFraction⟩ := parseFraction_sound readsFraction
  obtain ⟨exponent, isExponent⟩ := parseExponent_sound readsExponent
  have isText : text = (NumberText.mk negative integer fraction exponent).text ++ afterExponent := by
    rw [NumberText.text_eq, isSign, isInteger, isFraction, isExponent]
    simp only [List.append_assoc]
  have isToken : text.take (text.length - afterExponent.length) = (NumberText.mk negative integer fraction exponent).text := by
    rw [isText, List.length_append, Nat.add_sub_cancel, List.take_left]
  rw [isToken, strtod_text] at reads
  split at reads
  case h_1 double isDouble =>
    cases reads
    exact ⟨_, double, isText, isDouble, rfl⟩
  case h_2 => exact absurd reads fail_ne_ok

theorem parseNumber_complete {number : NumberText} {double : ℚ} (inRange : doubleOf number = some double) {rest : Text}
    (follows : Follows rest) : parseNumber (number.text ++ rest) = .ok (.number double, rest) := by
  have afterFraction : NoDigit (exponentText number.exponent ++ rest) := fun byte isHead =>
    (exponentText_head number.exponent follows isHead).1
  have noPoint : ∀ byte ∈ (exponentText number.exponent ++ rest).head?, byte ≠ ascii '.' := fun byte isHead =>
    (exponentText_head number.exponent follows isHead).2
  have noLetter : ∀ byte ∈ rest.head?, ¬ (byte = ascii 'e' ∨ byte = ascii 'E') := by
    intro byte isHead isLetter
    cases isLetter with
    | inl lower => exact follows.ne isHead (by decide) lower
    | inr upper => exact follows.ne isHead (by decide) upper
  have isToken : (number.text ++ rest).take ((number.text ++ rest).length - rest.length) = number.text := by
    rw [List.length_append, Nat.add_sub_cancel, List.take_left]
  have unsigned := (signText_append number.negative number.integer
    (fractionText number.fraction ++ (exponentText number.exponent ++ rest))).1
  rw [parseNumber, show skipMinus (number.text ++ rest) = number.integer.1 ++
      (fractionText number.fraction ++ (exponentText number.exponent ++ rest)) by
    rw [← unsigned, NumberText.text_eq]
    simp only [List.append_assoc]]
  rw [parseInteger_complete number.integer (fractionText_head number.fraction afterFraction), ok_bind,
    parseFraction_complete number.fraction afterFraction noPoint, ok_bind,
    parseExponent_complete number.exponent follows.noDigit noLetter, ok_bind, isToken, strtod_text, inRange]
  rfl

end CutPlan.Search.JsonParser
