import CutPlan.Lib.JsonText
import Mathlib.Algebra.Order.Field.Rat
import Mathlib.Tactic.Ring

/-! # What JSON texts denote

Escapes are paired to code points, the members of an object have distinct names, values are nested no deeper
than a limit, and numbers are in the range of a number type.
-/

namespace CutPlan.Lib.Json

inductive Datum (N : Type) where
  | null
  | bool (value : Bool)
  | number (value : N)
  | string (text : Text)
  | array (values : List (Datum N))
  | object (members : List (Text × Datum N))

/-! ## Numbers -/

def decimalValue (digits : Text) : ℕ :=
  digits.foldl (fun value digit => 10 * value + (digit.toNat - (ascii '0').toNat)) 0

abbrev IntegerText := { text : Text // IsDigits text ∧ (text.head? = some (ascii '0') → text = [ascii '0']) }

abbrev ExponentMark := { text : Text // text ∈ ["e", "E", "e+", "E+", "e-", "E-"].map asciiText }

def fractionText (fraction : Option { text : Text // IsDigits text }) : Text :=
  match fraction with
  | some digits => ascii '.' :: digits.1
  | none => []

def exponentText (exponent : Option (ExponentMark × { text : Text // IsDigits text })) : Text :=
  match exponent with
  | some (mark, digits) => mark.1 ++ digits.1
  | none => []

def signText (negative : Bool) : Text := if negative then [ascii '-'] else []

namespace NumberText

theorem text_eq (number : NumberText) : number.text =
    signText number.negative ++ (number.integer.1 ++ (fractionText number.fraction ++ exponentText number.exponent)) := by
  obtain ⟨negative, integer, fraction, exponent⟩ := number
  simp only [NumberText.text, signText, List.append_assoc]
  cases fraction <;> cases exponent <;> rfl

def fractionDigits (number : NumberText) : Text :=
  match number.fraction with
  | some digits => digits.1
  | none => []

def exponentValue (number : NumberText) : ℤ :=
  match number.exponent with
  | some (mark, digits) =>
    if mark.1.getLast? = some (ascii '-') then -(decimalValue digits.1 : ℤ) else decimalValue digits.1
  | none => 0

/-- The number without its sign. -/
def magnitude (number : NumberText) : ℚ :=
  decimalValue (number.integer.1 ++ number.fractionDigits) *
    10 ^ (number.exponentValue - number.fractionDigits.length)

end NumberText

/-! ## Surrogates -/

def IsSurrogate (unit : ℕ) : Prop := 0xD800 ≤ unit ∧ unit < 0xE000

/-- Escapes of surrogates come in pairs, the high one first. -/
inductive Paired : List StringPiece → Prop where
  | nil : Paired []
  | plain {piece : StringPiece} {pieces : List StringPiece} (noUnit : piece.codeUnit = none)
      (rest : Paired pieces) : Paired (piece :: pieces)
  | unit {piece : StringPiece} {pieces : List StringPiece} {unit : ℕ} (isUnit : piece.codeUnit = some unit)
      (alone : ¬ IsSurrogate unit) (rest : Paired pieces) : Paired (piece :: pieces)
  | pair {first second : StringPiece} {pieces : List StringPiece} {high low code : ℕ}
      (isHigh : first.codeUnit = some high) (isLow : second.codeUnit = some low)
      (joined : joinSurrogates high low = some code) (rest : Paired pieces) : Paired (first :: second :: pieces)

/-! ## Values -/

/-- What a text of at most so many nested arrays and objects denotes. -/
inductive Denotes {N : Type} (number : NumberText → Option N) : ℕ → Text → Datum N → Prop where
  | null {levels : ℕ} : Denotes number levels (asciiText "null") .null
  | bool {levels : ℕ} (value : Bool) :
      Denotes number levels (asciiText (if value then "true" else "false")) (.bool value)
  | number {levels : ℕ} {text : NumberText} {value : N} (inRange : number text = some value) :
      Denotes number levels text.text (.number value)
  | string {levels : ℕ} {pieces : List StringPiece} (paired : Paired pieces) :
      Denotes number levels (quoted pieces) (.string (decode pieces))
  | emptyArray {levels : ℕ} (space : Whitespace) :
      Denotes number (levels + 1) (ascii '[' :: space.1 ++ [ascii ']']) (.array [])
  | array {levels : ℕ} {first : Padded × Datum N} {rest : List (Padded × Datum N)}
      (values : ∀ element ∈ first :: rest, Denotes number levels element.1.value element.2) :
      Denotes number (levels + 1)
        (ascii '[' :: commaSeparated ((first :: rest).map (·.1.text)) ++ [ascii ']'])
        (.array ((first :: rest).map (·.2)))
  | emptyObject {levels : ℕ} (space : Whitespace) :
      Denotes number (levels + 1) (ascii '{' :: space.1 ++ [ascii '}']) (.object [])
  | object {levels : ℕ} {first : Member × Datum N} {rest : List (Member × Datum N)}
      (names : ∀ member ∈ first :: rest, Paired member.1.name)
      (values : ∀ member ∈ first :: rest, Denotes number levels member.1.value.value member.2)
      (distinct : ((first :: rest).map fun member => decode member.1.name).Nodup) :
      Denotes number (levels + 1)
        (ascii '{' :: commaSeparated ((first :: rest).map (·.1.text)) ++ [ascii '}'])
        (.object ((first :: rest).map fun member => (decode member.1.name, member.2)))

/-- A value with whitespace around it. -/
def TextDenotes {N : Type} (number : NumberText → Option N) (limit : ℕ) (text : Text) (datum : Datum N) : Prop :=
  ∃ padded : Padded, text = padded.text ∧ Denotes number limit padded.value datum

/-! ## Rules -/

section Rules

variable {N : Type} {number : NumberText → Option N}

/-- A deeper limit denotes the same. -/
theorem Denotes.mono {levels : ℕ} {text : Text} {datum : Datum N} (denotes : Denotes number levels text datum)
    {limit : ℕ} (deeper : levels ≤ limit) : Denotes number limit text datum := by
  induction denotes generalizing limit with
  | null => exact .null
  | bool value => exact .bool value
  | number inRange => exact .number inRange
  | string paired => exact .string paired
  | emptyArray space =>
    obtain ⟨limit, rfl⟩ : ∃ lower, limit = lower + 1 := ⟨limit - 1, by omega⟩
    exact .emptyArray space
  | array values inductionHypothesis =>
    obtain ⟨limit, rfl⟩ : ∃ lower, limit = lower + 1 := ⟨limit - 1, by omega⟩
    exact .array fun element isElement => inductionHypothesis element isElement (by omega)
  | emptyObject space =>
    obtain ⟨limit, rfl⟩ : ∃ lower, limit = lower + 1 := ⟨limit - 1, by omega⟩
    exact .emptyObject space
  | object names values distinct inductionHypothesis =>
    obtain ⟨limit, rfl⟩ : ∃ lower, limit = lower + 1 := ⟨limit - 1, by omega⟩
    exact .object names (fun member isMember => inductionHypothesis member isMember (by omega)) distinct

theorem isSurrogate_of_joined {high low code : ℕ} (joined : joinSurrogates high low = some code) :
    IsSurrogate high ∧ IsSurrogate low := by
  rw [joinSurrogates] at joined
  split at joined
  · rename_i inRange
    exact ⟨⟨by omega, by omega⟩, ⟨by omega, by omega⟩⟩
  · cases joined

/-- An escape that is not a surrogate is not joined with what follows. -/
theorem decode_unit {piece : StringPiece} {unit : ℕ} (isUnit : piece.codeUnit = some unit)
    (alone : ¬ IsSurrogate unit) (pieces : List StringPiece) :
    decode (piece :: pieces) = utf8 unit ++ decode pieces := by
  cases piece with
  | raw byte => cases isUnit
  | short escape => cases isUnit
  | unicode first second third fourth =>
    have notJoined : ∀ next : StringPiece, next.codeUnit.bind (joinSurrogates unit) = none := by
      intro next
      rw [Option.bind_eq_none_iff]
      intro low _
      cases joined : joinSurrogates unit low with
      | none => rfl
      | some code => exact absurd (isSurrogate_of_joined joined).1 alone
    cases pieces with
    | nil => simp only [decode, isUnit, Option.getD_some, List.append_nil]
    | cons next rest =>
      rw [decode]
      simp only [isUnit, Option.getD_some, notJoined next]

theorem decode_plain {piece : StringPiece} (noUnit : piece.codeUnit = none) (pieces : List StringPiece) :
    decode (piece :: pieces) = decode [piece] ++ decode pieces :=
  decode_cons pieces (by simp [noUnit])

theorem decode_pair {first second : StringPiece} {high low code : ℕ} (isHigh : first.codeUnit = some high)
    (isLow : second.codeUnit = some low) (joined : joinSurrogates high low = some code)
    (pieces : List StringPiece) : decode (first :: second :: pieces) = utf8 code ++ decode pieces := by
  cases first with
  | raw byte => cases isHigh
  | short escape => cases isHigh
  | unicode first second third fourth =>
    simp only [decode, isHigh, isLow, Option.getD_some, Option.bind_some, joined]

theorem paired_encode (text : Text) : Paired (encode text) := by
  induction text with
  | nil => exact .nil
  | cons byte text inductionHypothesis =>
    rw [encode, List.map_cons]
    cases unit : (escapePiece byte).codeUnit with
    | none => exact .plain unit inductionHypothesis
    | some value =>
      have small := codeUnit_escapePiece byte value unit
      exact .unit unit (fun surrogate => absurd surrogate.1 (by omega)) inductionHypothesis

end Rules

end CutPlan.Lib.Json
