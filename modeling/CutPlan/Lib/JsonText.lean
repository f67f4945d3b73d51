import Mathlib.Data.List.Basic
import Mathlib.Data.List.Lemmas

/-! # JSON texts

The grammar of JSON as texts of bytes, with insignificant whitespace, and what a string stands for.
-/

namespace CutPlan.Lib.Json

/-- Whether all bytes of a text have a property is decided along the text, not over all bytes. -/
scoped instance (priority := 2000) decidableForallMem {α : Type} (property : α → Prop) [DecidablePred property]
    (list : List α) : Decidable (∀ element ∈ list, property element) :=
  List.decidableBAll property list

abbrev Text := List UInt8

def ascii (char : Char) : UInt8 := char.toUInt8

def asciiText (text : String) : Text := text.toList.map ascii

/-- Insignificant whitespace. -/
abbrev Whitespace := { text : Text // ∀ byte ∈ text, byte ∈ [0x20, 0x09, 0x0A, 0x0D] }

/-! ## Strings -/

/-- A byte that stands for itself in a string. -/
abbrev RawByte := { byte : UInt8 // 0x20 ≤ byte ∧ byte ≠ ascii '"' ∧ byte ≠ ascii '\\' }

def hexDigits : Text := asciiText "0123456789abcdefABCDEF"

abbrev HexDigit := { byte : UInt8 // byte ∈ hexDigits }

inductive ShortEscape where
  | quote
  | backslash
  | slash
  | backspace
  | formFeed
  | newline
  | carriageReturn
  | tab
  deriving DecidableEq, Repr

namespace ShortEscape

def letter : ShortEscape → UInt8
  | .quote => ascii '"'
  | .backslash => ascii '\\'
  | .slash => ascii '/'
  | .backspace => ascii 'b'
  | .formFeed => ascii 'f'
  | .newline => ascii 'n'
  | .carriageReturn => ascii 'r'
  | .tab => ascii 't'

def value : ShortEscape → UInt8
  | .quote => 0x22
  | .backslash => 0x5C
  | .slash => 0x2F
  | .backspace => 0x08
  | .formFeed => 0x0C
  | .newline => 0x0A
  | .carriageReturn => 0x0D
  | .tab => 0x09

end ShortEscape

inductive StringPiece where
  | raw (byte : RawByte)
  | short (escape : ShortEscape)
  | unicode (first second third fourth : HexDigit)
  deriving DecidableEq

def HexDigit.value (digit : HexDigit) : ℕ :=
  if digit.1 ≤ ascii '9' then digit.1.toNat - (ascii '0').toNat
  else if digit.1 ≤ ascii 'F' then digit.1.toNat - (ascii 'A').toNat + 10
  else digit.1.toNat - (ascii 'a').toNat + 10

def hexDigit (value : ℕ) : HexDigit :=
  ⟨hexDigits.getD value (ascii '0'), by
    rw [List.getD_eq_getElem?_getD]
    cases digit : hexDigits[value]? with
    | none => decide
    | some byte => exact List.mem_of_getElem? digit⟩

/-- The UTF-8 bytes of a code point. -/
def utf8 (code : ℕ) : Text :=
  if code < 0x80 then [code.toUInt8]
  else if code < 0x800 then [(0xC0 + code / 0x40).toUInt8, (0x80 + code % 0x40).toUInt8]
  else if code < 0x10000 then
    [(0xE0 + code / 0x1000).toUInt8, (0x80 + code / 0x40 % 0x40).toUInt8, (0x80 + code % 0x40).toUInt8]
  else
    [(0xF0 + code / 0x40000).toUInt8, (0x80 + code / 0x1000 % 0x40).toUInt8,
      (0x80 + code / 0x40 % 0x40).toUInt8, (0x80 + code % 0x40).toUInt8]

namespace StringPiece

def text : StringPiece → Text
  | .raw byte => [byte.1]
  | .short escape => [ascii '\\', escape.letter]
  | .unicode first second third fourth =>
    [ascii '\\', ascii 'u', first.1, second.1, third.1, fourth.1]

def isUnicode : StringPiece → Bool
  | .unicode _ _ _ _ => true
  | _ => false

/-- The code unit of an escape with four digits. -/
def codeUnit : StringPiece → Option ℕ
  | .unicode first second third fourth =>
    some (first.value * 0x1000 + second.value * 0x100 + third.value * 0x10 + fourth.value)
  | _ => none

end StringPiece

def joinSurrogates (high low : ℕ) : Option ℕ :=
  if 0xD800 ≤ high ∧ high < 0xDC00 ∧ 0xDC00 ≤ low ∧ low < 0xE000 then
    some (0x10000 + (high - 0xD800) * 0x400 + (low - 0xDC00))
  else none

/-- The bytes of the string that the pieces stand for.  Two escapes can make one code point. -/
def decode : List StringPiece → Text
  | [] => []
  | .raw byte :: pieces => byte.1 :: decode pieces
  | .short escape :: pieces => escape.value :: decode pieces
  | .unicode first second third fourth :: pieces =>
    let unit := (StringPiece.unicode first second third fourth).codeUnit.getD 0
    match pieces with
    | [] => utf8 unit
    | next :: rest =>
      match next.codeUnit.bind (joinSurrogates unit) with
      | some code => utf8 code ++ decode rest
      | none => utf8 unit ++ decode (next :: rest)

/-- The least escape of a byte. -/
def escapePiece (byte : UInt8) : StringPiece :=
  if quote : byte = ascii '"' then .short .quote
  else if backslash : byte = ascii '\\' then .short .backslash
  else if byte = 0x08 then .short .backspace
  else if byte = 0x0C then .short .formFeed
  else if byte = 0x0A then .short .newline
  else if byte = 0x0D then .short .carriageReturn
  else if byte = 0x09 then .short .tab
  else if printable : 0x20 ≤ byte then .raw ⟨byte, printable, quote, backslash⟩
  else .unicode (hexDigit 0) (hexDigit 0) (hexDigit (byte.toNat / 0x10)) (hexDigit (byte.toNat % 0x10))

def encode (text : Text) : List StringPiece := text.map escapePiece

/-- A string in quotes. -/
def quoted (pieces : List StringPiece) : Text :=
  ascii '"' :: pieces.flatMap StringPiece.text ++ [ascii '"']

def Plain (pieces : List StringPiece) : Prop := ∀ piece ∈ pieces, piece.isUnicode = false

instance (pieces : List StringPiece) : Decidable (Plain pieces) :=
  inferInstanceAs (Decidable (∀ piece ∈ pieces, _))

/-! ## Numbers -/

def IsDigits (text : Text) : Prop := text ≠ [] ∧ ∀ byte ∈ text, byte ∈ asciiText "0123456789"

instance (text : Text) : Decidable (IsDigits text) :=
  inferInstanceAs (Decidable (_ ∧ _))

/-- A number without superfluous zeros in front, with an optional fraction and exponent. -/
structure NumberText where
  negative : Bool
  integer : { text : Text // IsDigits text ∧ (text.head? = some (ascii '0') → text = [ascii '0']) }
  fraction : Option { text : Text // IsDigits text }
  exponent : Option ({ text : Text // text ∈ ["e", "E", "e+", "E+", "e-", "E-"].map asciiText } ×
    { text : Text // IsDigits text })
  deriving DecidableEq

def NumberText.text (number : NumberText) : Text :=
  (if number.negative then [ascii '-'] else []) ++ number.integer.1 ++
    (match number.fraction with | some digits => ascii '.' :: digits.1 | none => []) ++
    (match number.exponent with | some (mark, digits) => mark.1 ++ digits.1 | none => [])

/-! ## Values -/

/-- Something with whitespace around it. -/
structure Padded where
  before : Whitespace
  value : Text
  after : Whitespace

def Padded.text (padded : Padded) : Text := padded.before.1 ++ padded.value ++ padded.after.1

structure Member where
  before : Whitespace
  name : List StringPiece
  beforeColon : Whitespace
  value : Padded

def Member.text (member : Member) : Text :=
  member.before.1 ++ quoted member.name ++ member.beforeColon.1 ++ ascii ':' :: member.value.text

def commaSeparated (texts : List Text) : Text := [ascii ','].intercalate texts

inductive IsValue : Text → Prop where
  | literal {text : Text} (isLiteral : text ∈ ["true", "false", "null"].map asciiText) : IsValue text
  | number (number : NumberText) : IsValue number.text
  | string (pieces : List StringPiece) : IsValue (quoted pieces)
  | emptyArray (space : Whitespace) : IsValue (ascii '[' :: space.1 ++ [ascii ']'])
  | array {first : Padded} {rest : List Padded}
      (values : ∀ element ∈ first :: rest, IsValue element.value) :
      IsValue (ascii '[' :: commaSeparated ((first :: rest).map Padded.text) ++ [ascii ']'])
  | emptyObject (space : Whitespace) : IsValue (ascii '{' :: space.1 ++ [ascii '}'])
  | object {first : Member} {rest : List Member}
      (values : ∀ member ∈ first :: rest, IsValue member.value.value) :
      IsValue (ascii '{' :: commaSeparated ((first :: rest).map Member.text) ++ [ascii '}'])

/-! ## Arrays of strings -/

/-- The text of an item and the whitespace around it. -/
def paddedText {β : Type} (itemText : β → Text) (item : Whitespace × β × Whitespace) : Text :=
  item.1.1 ++ itemText item.2.1 ++ item.2.2.1

inductive StringArray where
  | empty (space : Whitespace)
  | strings (first : Whitespace × List StringPiece × Whitespace)
      (rest : List (Whitespace × List StringPiece × Whitespace))

namespace StringArray

def text : StringArray → Text
  | .empty space => ascii '[' :: space.1 ++ [ascii ']']
  | .strings first rest => ascii '[' :: commaSeparated ((first :: rest).map (paddedText quoted)) ++ [ascii ']']

def items : StringArray → List (List StringPiece)
  | .empty _ => []
  | .strings first rest => (first :: rest).map (·.2.1)

end StringArray

inductive StringMatrix where
  | empty (space : Whitespace)
  | rows (first : Whitespace × StringArray × Whitespace) (rest : List (Whitespace × StringArray × Whitespace))

namespace StringMatrix

def text : StringMatrix → Text
  | .empty space => ascii '[' :: space.1 ++ [ascii ']']
  | .rows first rest => ascii '[' :: commaSeparated ((first :: rest).map (paddedText StringArray.text)) ++ [ascii ']']

def items : StringMatrix → List (List (List StringPiece))
  | .empty _ => []
  | .rows first rest => (first :: rest).map (·.2.1.items)

end StringMatrix

/-- A JSON text whose value is an object with members. -/
structure ObjectText where
  before : Whitespace
  first : Member
  rest : List Member
  after : Whitespace

namespace ObjectText

def members (object : ObjectText) : List Member := object.first :: object.rest

def text (object : ObjectText) : Text :=
  object.before.1 ++ ascii '{' :: commaSeparated (object.members.map Member.text) ++
    ascii '}' :: object.after.1

/-- Members have distinct names. -/
def DistinctNames (object : ObjectText) : Prop :=
  (object.members.map fun member => decode member.name).Nodup

end ObjectText

/-! ## Rules -/

/-- Only a high surrogate is joined with what follows. -/
theorem decode_cons {piece : StringPiece} (pieces : List StringPiece)
    (notHigh : ∀ unit ∈ piece.codeUnit, unit < 0xD800) :
    decode (piece :: pieces) = decode [piece] ++ decode pieces := by
  cases piece with
  | raw byte => simp [decode]
  | short escape => simp [decode]
  | unicode first second third fourth =>
    cases pieces with
    | nil => simp [decode]
    | cons next rest =>
      have low := notHigh _ rfl
      have notJoined : ∀ other, joinSurrogates
          (first.value * 0x1000 + second.value * 0x100 + third.value * 0x10 + fourth.value) other = none :=
        fun other => if_neg (by omega)
      cases unit : next.codeUnit with
      | none => simp [decode, unit]
      | some other => simp [decode, unit, StringPiece.codeUnit, notJoined]

theorem decode_of_plain {piece : StringPiece} (pieces : List StringPiece) (plain : piece.isUnicode = false) :
    decode (piece :: pieces) = decode [piece] ++ decode pieces := by
  apply decode_cons
  cases piece with
  | raw byte => simp [StringPiece.codeUnit]
  | short escape => simp [StringPiece.codeUnit]
  | unicode first second third fourth => cases plain

/-- What holds of each byte value holds of each byte. -/
theorem forall_byte {property : UInt8 → Prop} (holds : ∀ value : Fin 256, property (UInt8.ofFin value))
    (byte : UInt8) : property byte :=
  holds byte.toFin

theorem decode_escapePiece : ∀ byte, decode [escapePiece byte] = [byte] :=
  forall_byte (by decide +kernel)

theorem codeUnit_escapePiece : ∀ byte, ∀ unit ∈ (escapePiece byte).codeUnit, unit < 0xD800 :=
  forall_byte (by decide +kernel)

theorem decode_encode (text : Text) : decode (encode text) = text := by
  induction text with
  | nil => rfl
  | cons byte text inductionHypothesis =>
    rw [encode, List.map_cons, decode_cons _ (codeUnit_escapePiece byte), decode_escapePiece]
    exact congrArg (byte :: ·) inductionHypothesis

theorem commaSeparated_singleton (text : Text) : commaSeparated [text] = text := by
  simp [commaSeparated, List.intercalate]

theorem commaSeparated_cons (first second : Text) (rest : List Text) :
    commaSeparated (first :: second :: rest) = first ++ ascii ',' :: commaSeparated (second :: rest) := by
  simp [commaSeparated, List.intercalate]

theorem exists_commaSeparated (first : Text) (rest : List Text) :
    ∃ tail, commaSeparated (first :: rest) = first ++ tail := by
  cases rest with
  | nil => exact ⟨[], by rw [commaSeparated_singleton, List.append_nil]⟩
  | cons second rest => exact ⟨_, commaSeparated_cons first second rest⟩

theorem StringArray.isValue (array : StringArray) : IsValue array.text := by
  cases array with
  | empty space => exact .emptyArray space
  | strings first rest =>
    have padded := @IsValue.array ⟨first.1, quoted first.2.1, first.2.2⟩
      (rest.map fun item => ⟨item.1, quoted item.2.1, item.2.2⟩) (by
        simp only [List.forall_mem_cons, List.forall_mem_map]
        exact ⟨.string _, fun item _ => .string _⟩)
    rwa [List.map_cons, List.map_map] at padded

theorem StringMatrix.isValue (matrix : StringMatrix) : IsValue matrix.text := by
  cases matrix with
  | empty space => exact .emptyArray space
  | rows first rest =>
    have padded := @IsValue.array ⟨first.1, first.2.1.text, first.2.2⟩
      (rest.map fun row => ⟨row.1, row.2.1.text, row.2.2⟩) (by
        simp only [List.forall_mem_cons, List.forall_mem_map]
        exact ⟨first.2.1.isValue, fun row _ => row.2.1.isValue⟩)
    rwa [List.map_cons, List.map_map] at padded

end CutPlan.Lib.Json
