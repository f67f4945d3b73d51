import CutPlan.Lib.JsonText
import Mathlib.Data.Nat.Digits.Lemmas
import Mathlib.Data.Int.Notation

/-! # JSON values and their texts

Values, and the texts that an encoder writes for them: separators are followed by one space, members are
in order, and only quotes, backslashes and control characters are escaped.
-/

namespace CutPlan.Lib.Json

/-! ## Strings and numbers -/

/-- The bytes of a string in UTF-8. -/
def utf8Text (text : String) : Text := text.toList.flatMap String.utf8EncodeChar

/-- No character is a control character. -/
def Printable (text : String) : Prop := ∀ char ∈ text.toList, 0x20 ≤ char.toNat

instance (text : String) : Decidable (Printable text) :=
  inferInstanceAs (Decidable (∀ char ∈ text.toList, _))

def decimal (value : ℕ) : Text :=
  if value = 0 then [ascii '0'] else (Nat.digits 10 value).reverse.map fun digit => hexDigits.getD digit 0

theorem isDigits_decimal (value : ℕ) : IsDigits (decimal value) := by
  rw [decimal]
  split
  · decide
  · rename_i notZero
    constructor
    · simp [Nat.digits_ne_nil_iff_ne_zero.mpr notZero]
    · have digits : ∀ digit < 10, hexDigits.getD digit 0 ∈ asciiText "0123456789" := by decide
      simp only [List.forall_mem_map, List.mem_reverse]
      exact fun digit isDigit => digits digit (Nat.digits_lt_base (by decide) isDigit)

/-- The last of the digits, which is written first, is not zero. -/
theorem decimal_head (value : ℕ) : (decimal value).head? = some (ascii '0') → decimal value = [ascii '0'] := by
  rw [decimal]
  split
  · exact fun _ => rfl
  · rename_i notZero
    have nonempty := Nat.digits_ne_nil_iff_ne_zero (b := 10).mpr notZero
    have first : ∀ digit < 10, digit ≠ 0 → hexDigits.getD digit 0 ≠ ascii '0' := by decide
    intro isZero
    rw [List.head?_map, List.head?_reverse, List.getLast?_eq_getLast_of_ne_nil nonempty, Option.map_some,
      Option.some_inj] at isZero
    exact absurd isZero (first _ (Nat.digits_lt_base (by decide) (List.getLast_mem nonempty))
      (Nat.getLast_digit_ne_zero 10 notZero))

def intNumber (value : ℤ) : NumberText where
  negative := value < 0
  integer := ⟨decimal value.natAbs, isDigits_decimal _, decimal_head _⟩
  fraction := none
  exponent := none

/-! ## Values -/

inductive Value where
  | null
  | bool (value : Bool)
  | number (text : NumberText)
  | string (text : String)
  | array (values : List Value)
  | object (members : List (String × Value))

def stringText (text : String) : Text := quoted (encode (utf8Text text))

def spaceSeparated (texts : List Text) : Text := (asciiText ", ").intercalate texts

mutual
/-- The text of a value. -/
def dumps : Value → Text
  | .null => asciiText "null"
  | .bool value => asciiText (if value then "true" else "false")
  | .number text => text.text
  | .string text => stringText text
  | .array values => ascii '[' :: spaceSeparated (dumpsItems values) ++ [ascii ']']
  | .object members => ascii '{' :: spaceSeparated (dumpsMembers members) ++ [ascii '}']

def dumpsItems : List Value → List Text
  | [] => []
  | value :: values => dumps value :: dumpsItems values

def dumpsMembers : List (String × Value) → List Text
  | [] => []
  | (name, value) :: members => (stringText name ++ asciiText ": " ++ dumps value) :: dumpsMembers members
end

/-! ## Rules -/

theorem utf8Text_injective {first second : String} (same : utf8Text first = utf8Text second) :
    first = second := by
  rw [← String.toByteArray_inj, ← String.utf8Encode_toList, ← String.utf8Encode_toList]
  exact congrArg List.toByteArray same

/-- Only a control character is written with a control byte. -/
theorem utf8EncodeChar_printable {char : Char} (printable : 0x20 ≤ char.toNat) :
    ∀ byte ∈ String.utf8EncodeChar char, 0x20 ≤ byte.toNat := by
  have code : char.val.toNat = char.toNat := rfl
  fun_cases String.utf8EncodeChar char
  all_goals
    simp only [List.forall_mem_cons, UInt8.toNat_ofNat', Nat.reducePow, List.not_mem_nil, false_imp_iff,
      implies_true, and_true]
    omega

theorem utf8Text_printable {text : String} (printable : Printable text) :
    ∀ byte ∈ utf8Text text, 0x20 ≤ byte.toNat := by
  intro byte isByte
  obtain ⟨char, isChar, isEncoded⟩ := List.mem_flatMap.mp isByte
  exact utf8EncodeChar_printable (printable char isChar) byte isEncoded

theorem isUnicode_escapePiece : ∀ byte : UInt8, 0x20 ≤ byte.toNat → (escapePiece byte).isUnicode = false :=
  forall_byte (by decide +kernel)

theorem plain_encode {text : String} (printable : Printable text) : Plain (encode (utf8Text text)) := by
  intro piece isPiece
  obtain ⟨byte, isByte, rfl⟩ := List.mem_map.mp isPiece
  exact isUnicode_escapePiece byte (utf8Text_printable printable byte isByte)

theorem spaceSeparated_cons (first : Text) (rest : List Text) :
    spaceSeparated (first :: rest) = commaSeparated (first :: rest.map (ascii ' ' :: ·)) := by
  induction rest generalizing first with
  | nil => simp [spaceSeparated, commaSeparated, List.intercalate]
  | cons second rest inductionHypothesis =>
    have continues := inductionHypothesis (ascii ' ' :: second)
    have spaced : spaceSeparated (first :: second :: rest) =
        first ++ ascii ',' :: spaceSeparated ((ascii ' ' :: second) :: rest) := by
      cases rest <;> simp [spaceSeparated, List.intercalate, asciiText]
    rw [spaced, continues, List.map_cons, commaSeparated_cons]

def noSpace : Whitespace := ⟨[], by decide⟩

def oneSpace : Whitespace := ⟨[ascii ' '], by decide⟩

theorem isValue_array {texts : List Text} (values : ∀ text ∈ texts, IsValue text) :
    IsValue (ascii '[' :: spaceSeparated texts ++ [ascii ']']) := by
  cases texts with
  | nil => exact .emptyArray noSpace
  | cons first rest =>
    have padded := @IsValue.array ⟨noSpace, first, noSpace⟩ (rest.map fun text => ⟨oneSpace, text, noSpace⟩) (by
      simpa only [List.forall_mem_cons, List.forall_mem_map] using values)
    rw [List.map_cons, List.map_map] at padded
    simpa [spaceSeparated_cons, Padded.text, noSpace, oneSpace, Function.comp_def] using padded

/-- A member as the encoder writes it. -/
def plainMember (before : Whitespace) (member : String × Value) : Member :=
  ⟨before, encode (utf8Text member.1), noSpace, oneSpace, dumps member.2, noSpace⟩

theorem dumpsMembers_eq (members : List (String × Value)) :
    dumpsMembers members = members.map fun member => (plainMember noSpace member).text := by
  induction members with
  | nil => rfl
  | cons member members inductionHypothesis =>
    rw [dumpsMembers, inductionHypothesis, List.map_cons]
    simp [plainMember, Member.text, Padded.text, noSpace, oneSpace, stringText, asciiText]

/-- The members of an object in the grammar. -/
theorem spaceSeparated_dumpsMembers (first : String × Value) (rest : List (String × Value)) :
    spaceSeparated (dumpsMembers (first :: rest)) =
      commaSeparated ((plainMember noSpace first :: rest.map (plainMember oneSpace)).map Member.text) := by
  rw [dumpsMembers_eq, List.map_cons, spaceSeparated_cons, List.map_cons, List.map_map, List.map_map]
  rfl

mutual
theorem dumps_isValue (value : Value) : IsValue (dumps value) := by
  cases value with
  | null => exact .literal (by decide)
  | bool value => cases value <;> exact .literal (by decide)
  | number text => exact .number text
  | string text => exact .string _
  | array values => exact isValue_array (dumpsItems_isValue values)
  | object members =>
    have areValues := members_isValue members
    cases members with
    | nil => exact .emptyObject noSpace
    | cons first rest =>
      rw [dumps, spaceSeparated_dumpsMembers]
      apply IsValue.object
      simpa only [List.forall_mem_cons, List.forall_mem_map, plainMember] using areValues

theorem dumpsItems_isValue (values : List Value) : ∀ text ∈ dumpsItems values, IsValue text := by
  cases values with
  | nil => simp [dumpsItems]
  | cons value values =>
    rw [dumpsItems, List.forall_mem_cons]
    exact ⟨dumps_isValue value, dumpsItems_isValue values⟩

theorem members_isValue (members : List (String × Value)) : ∀ member ∈ members, IsValue (dumps member.2) := by
  cases members with
  | nil => simp
  | cons member members =>
    rw [List.forall_mem_cons]
    exact ⟨dumps_isValue member.2, members_isValue members⟩
end

theorem dumpsItems_eq (values : List Value) : dumpsItems values = values.map dumps := by
  induction values with
  | nil => rfl
  | cons value values inductionHypothesis => rw [dumpsItems, inductionHypothesis, List.map_cons]

/-! ## Arrays of strings -/

def stringsValue (texts : List String) : Value := .array (texts.map .string)

def matrixValue (rows : List (List String)) : Value := .array (rows.map stringsValue)

/-- Items as the encoder writes them. -/
def spaced {β : Type} (first : β) (rest : List β) : List (Whitespace × β × Whitespace) :=
  (noSpace, first, noSpace) :: rest.map fun item => (oneSpace, item, noSpace)

theorem spaceSeparated_spaced {β : Type} (itemText : β → Text) (first : β) (rest : List β) :
    spaceSeparated ((first :: rest).map itemText) =
      commaSeparated ((spaced first rest).map (paddedText itemText)) := by
  rw [List.map_cons, spaceSeparated_cons, spaced, List.map_cons, List.map_map, List.map_map]
  simp [paddedText, noSpace, oneSpace, Function.comp_def]

def stringArray : List String → StringArray
  | [] => .empty noSpace
  | first :: rest =>
    .strings (noSpace, encode (utf8Text first), noSpace)
      (rest.map fun text => (oneSpace, encode (utf8Text text), noSpace))

theorem dumps_stringsValue (texts : List String) : dumps (stringsValue texts) = (stringArray texts).text := by
  rw [stringsValue, dumps, dumpsItems_eq, List.map_map]
  cases texts with
  | nil => rfl
  | cons first rest =>
    have separated := spaceSeparated_spaced quoted (encode (utf8Text first)) (rest.map (encode ∘ utf8Text))
    rw [spaced, List.map_map, List.map_cons, List.map_map] at separated
    rw [stringArray, StringArray.text]
    exact congrArg (fun text => ascii '[' :: text ++ [ascii ']']) separated

theorem stringArray_items (texts : List String) : (stringArray texts).items = texts.map (encode ∘ utf8Text) := by
  cases texts with
  | nil => rfl
  | cons first rest => simp [stringArray, StringArray.items, Function.comp_def]

def stringMatrix : List (List String) → StringMatrix
  | [] => .empty noSpace
  | first :: rest =>
    .rows (noSpace, stringArray first, noSpace) (rest.map fun row => (oneSpace, stringArray row, noSpace))

theorem dumps_matrixValue (rows : List (List String)) : dumps (matrixValue rows) = (stringMatrix rows).text := by
  rw [matrixValue, dumps, dumpsItems_eq, List.map_map]
  cases rows with
  | nil => rfl
  | cons first rest =>
    have separated := spaceSeparated_spaced StringArray.text (stringArray first) (rest.map stringArray)
    rw [spaced, List.map_map, List.map_cons, List.map_map] at separated
    have rowTexts : dumps ∘ stringsValue = StringArray.text ∘ stringArray := funext dumps_stringsValue
    rw [rowTexts, stringMatrix, StringMatrix.text]
    exact congrArg (fun text => ascii '[' :: text ++ [ascii ']']) separated

theorem stringMatrix_items (rows : List (List String)) :
    (stringMatrix rows).items = rows.map (·.map (encode ∘ utf8Text)) := by
  cases rows with
  | nil => rfl
  | cons first rest => simp [stringMatrix, StringMatrix.items, Function.comp_def, stringArray_items]

end CutPlan.Lib.Json
