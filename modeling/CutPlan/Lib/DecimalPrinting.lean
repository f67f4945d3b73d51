import CutPlan.Lib.JsonDatum
import CutPlan.Lib.JsonValue
import CutPlan.Lib.Rounding
import Mathlib.Data.List.DropRight

/-! # Numbers printed with so many significant digits

The general format: a magnitude is rounded to a number of significant digits, zeros at the end are left out,
and the exponent is written where it is small or large.
-/

namespace CutPlan.Lib.Json

/-! ## The format -/

def zeros (count : ℕ) : Text := List.replicate count (ascii '0')

/-- The text without the zeros at its end. -/
def dropZeros (text : Text) : Text := text.rdropWhile (· = ascii '0')

/-- Some digits and a point after the first so many of them. -/
def pointAfter (whole : ℕ) (digits : Text) : Text :=
  digits.take whole ++ (if whole < digits.length then ascii '.' :: digits.drop whole else [])

/-- An exponent with its sign and at least two digits. -/
def exponentSuffix (exponent : ℤ) : Text :=
  ascii 'e' :: (if exponent < 0 then ascii '-' else ascii '+') ::
    (if exponent.natAbs < 10 then ascii '0' :: decimal exponent.natAbs else decimal exponent.natAbs)

/-- The digits of a rounded magnitude, where the first one has this exponent. -/
def significantDigits (digits : ℕ) (rounded : ℚ) (exponent : ℤ) : Text :=
  dropZeros (decimal ⌊rounded * 10 ^ ((digits : ℤ) - 1 - exponent)⌋₊)

/-- The conversion `%.*g` of a magnitude. -/
def generalText (digits : ℕ) (magnitude : ℚ) : Text :=
  if magnitude = 0 then [ascii '0']
  else
    let rounded := roundSignificant 10 digits magnitude
    let exponent := Int.log 10 rounded
    let significand := significantDigits digits rounded exponent
    if exponent < -4 ∨ digits ≤ exponent then pointAfter 1 significand ++ exponentSuffix exponent
    else if exponent < 0 then ascii '0' :: ascii '.' :: (zeros (-exponent - 1).toNat ++ significand)
    else
      let whole := exponent.toNat + 1
      pointAfter whole (significand ++ zeros (whole - significand.length))

/-! ## Digits -/

theorem decimalValue_append (first second : Text) :
    decimalValue (first ++ second) = decimalValue first * 10 ^ second.length + decimalValue second := by
  have shifted : ∀ (start : ℕ) (digits : Text), digits.foldl (fun value digit =>
      10 * value + (digit.toNat - (ascii '0').toNat)) start = start * 10 ^ digits.length + decimalValue digits := by
    intro start digits
    induction digits generalizing start with
    | nil => simp [decimalValue]
    | cons digit digits inductionHypothesis =>
      rw [decimalValue, List.foldl_cons, List.foldl_cons, inductionHypothesis, inductionHypothesis (10 * 0 + _),
        List.length_cons]
      ring
  rw [decimalValue, List.foldl_append, shifted]
  rfl

@[simp] theorem decimalValue_zeros (count : ℕ) : decimalValue (zeros count) = 0 := by
  induction count with
  | zero => rfl
  | succ count inductionHypothesis =>
    rw [zeros, List.replicate_succ', decimalValue_append]
    rw [zeros] at inductionHypothesis
    rw [inductionHypothesis]
    rfl

@[simp] theorem length_zeros (count : ℕ) : (zeros count).length = count := List.length_replicate

theorem decimalValue_decimal (value : ℕ) : decimalValue (decimal value) = value := by
  rw [decimal]
  split
  case isTrue isZero => rw [isZero]; rfl
  case isFalse notZero =>
    have digitValue : ∀ digit < 10, decimalValue [hexDigits.getD digit 0] = digit := by decide
    -- The first of the digits is the last one that is written.
    have digits : ∀ list : List ℕ, (∀ digit ∈ list, digit < 10) →
        decimalValue (list.reverse.map fun digit => hexDigits.getD digit 0) = Nat.ofDigits 10 list := by
      intro list small
      induction list with
      | nil => rfl
      | cons digit list inductionHypothesis =>
        rw [List.forall_mem_cons] at small
        rw [List.reverse_cons, List.map_append, decimalValue_append, inductionHypothesis small.2, List.map_singleton,
          digitValue digit small.1, Nat.ofDigits_cons]
        simp only [List.length_singleton, pow_one]
        ring
    rw [digits _ fun digit isDigit => Nat.digits_lt_base (by decide) isDigit, Nat.ofDigits_digits]

theorem length_decimal {value : ℕ} (positive : 0 < value) : (decimal value).length = Nat.log 10 value + 1 := by
  rw [decimal, if_neg positive.ne', List.length_map, List.length_reverse, Nat.length_digits 10 value (by decide) positive.ne']

theorem exists_dropZeros (text : Text) : ∃ count, text = dropZeros text ++ zeros count := by
  induction text using List.reverseRecOn with
  | nil => exact ⟨0, rfl⟩
  | append_singleton text byte inductionHypothesis =>
    rw [dropZeros, List.rdropWhile_concat]
    split
    case isTrue isZero =>
      obtain ⟨count, isText⟩ := inductionHypothesis
      refine ⟨count + 1, ?_⟩
      rw [decide_eq_true_eq] at isZero
      rw [zeros, List.replicate_succ', ← List.append_assoc, isZero]
      exact congrArg (· ++ [ascii '0']) isText
    case isFalse => exact ⟨0, (List.append_nil _).symm⟩

theorem isDigits_zeros (count : ℕ) : ∀ byte ∈ zeros count, byte ∈ asciiText "0123456789" := by
  intro byte isByte
  rw [List.eq_of_mem_replicate isByte]
  decide

/-! ## Texts of numbers -/

/-- Digits without a zero in front. -/
structure IsSignificand (digits : Text) : Prop where
  nonempty : digits ≠ []
  areDigits : ∀ byte ∈ digits, byte ∈ asciiText "0123456789"
  leading : digits.head? ≠ some (ascii '0')

theorem IsSignificand.append_zeros {digits : Text} (significand : IsSignificand digits) (count : ℕ) :
    IsSignificand (digits ++ zeros count) where
  nonempty := by simp [significand.nonempty]
  areDigits := List.forall_mem_append.mpr ⟨significand.areDigits, isDigits_zeros count⟩
  leading := by
    rw [List.head?_append_of_ne_nil _ significand.nonempty]
    exact significand.leading

abbrev Exponent := Option (ExponentMark × { text : Text // IsDigits text })

def exponentOf (exponent : Exponent) : ℤ := (NumberText.mk false ⟨[ascii '0'], by decide⟩ none exponent).exponentValue

/-- A number with a point after some of its digits. -/
theorem exists_pointNumber {digits : Text} (significand : IsSignificand digits) {whole : ℕ} (someWhole : 0 < whole)
    (enough : whole ≤ digits.length) (exponent : Exponent) :
    ∃ number : NumberText, number.negative = false ∧ number.text = pointAfter whole digits ++ exponentText exponent ∧
      number.magnitude = decimalValue digits * 10 ^ (exponentOf exponent - (digits.length - whole : ℕ)) := by
  obtain ⟨nonempty, areDigits, leading⟩ := significand
  have takeNonempty : digits.take whole ≠ [] := by simp [nonempty, someWhole.ne']
  have sameHead : (digits.take whole).head? = digits.head? := by
    rw [List.head?_take, if_neg someWhole.ne']
  let integer : IntegerText := ⟨digits.take whole,
    ⟨takeNonempty, fun byte isByte => areDigits byte (List.mem_of_mem_take isByte)⟩,
    fun startsZero => absurd (sameHead ▸ startsZero) leading⟩
  by_cases longer : whole < digits.length
  case pos =>
    have dropNonempty : digits.drop whole ≠ [] := by simpa using longer
    let fraction : { text : Text // IsDigits text } :=
      ⟨digits.drop whole, dropNonempty, fun byte isByte => areDigits byte (List.mem_of_mem_drop isByte)⟩
    refine ⟨⟨false, integer, some fraction, exponent⟩, rfl, ?_, ?_⟩
    · rw [NumberText.text_eq, pointAfter, if_pos longer]
      simp [signText, fractionText, integer, fraction]
    · simp only [NumberText.magnitude, NumberText.fractionDigits, integer, fraction, List.take_append_drop, List.length_drop]
      rfl
  case neg =>
    have sameLength : digits.length = whole := le_antisymm (not_lt.mp longer) enough
    refine ⟨⟨false, integer, none, exponent⟩, rfl, ?_, ?_⟩
    · rw [NumberText.text_eq, pointAfter, if_neg longer]
      simp [signText, fractionText, integer]
    · have all : digits.take whole = digits := List.take_of_length_le sameLength.le
      simp only [NumberText.magnitude, NumberText.fractionDigits, integer, List.append_nil, all, sameLength, Nat.sub_self,
        List.length_nil]
      rfl

/-- A number whose digits all come after the point. -/
theorem exists_smallNumber {digits : Text} (significand : IsSignificand digits) (count : ℕ) :
    ∃ number : NumberText, number.negative = false ∧
      number.text = ascii '0' :: ascii '.' :: (zeros count ++ digits) ∧
      number.magnitude = decimalValue digits * 10 ^ (-(count + digits.length : ℕ) : ℤ) := by
  have areDigits : IsDigits (zeros count ++ digits) :=
    ⟨by simp [significand.nonempty], List.forall_mem_append.mpr ⟨isDigits_zeros count, significand.areDigits⟩⟩
  refine ⟨⟨false, ⟨[ascii '0'], by decide⟩, some ⟨_, areDigits⟩, none⟩, rfl, ?_, ?_⟩
  · simp [NumberText.text_eq, signText, fractionText, exponentText]
  simp only [NumberText.magnitude, NumberText.fractionDigits, NumberText.exponentValue, decimalValue_append,
    decimalValue_zeros, List.length_append, length_zeros, zero_sub, Nat.zero_mul, Nat.zero_add]
  simp [decimalValue]

theorem exists_exponentText (exponent : ℤ) :
    ∃ written : Exponent, exponentText written = exponentSuffix exponent ∧ exponentOf written = exponent := by
  let digits := if exponent.natAbs < 10 then ascii '0' :: decimal exponent.natAbs else decimal exponent.natAbs
  have areDigits : IsDigits digits := by
    simp only [digits]
    have decimalDigits := isDigits_decimal exponent.natAbs
    split
    · exact ⟨by simp, List.forall_mem_cons.mpr ⟨by decide, decimalDigits.2⟩⟩
    · exact decimalDigits
  have isValue : decimalValue digits = exponent.natAbs := by
    simp only [digits]
    split
    · rw [← List.singleton_append, decimalValue_append, decimalValue_decimal]
      simp [decimalValue]
    · exact decimalValue_decimal _
  by_cases negative : exponent < 0
  case pos =>
    refine ⟨some (⟨[ascii 'e', ascii '-'], by decide⟩, ⟨digits, areDigits⟩), ?_, ?_⟩
    · simp [exponentText, exponentSuffix, negative, digits]
    · simp only [exponentOf, NumberText.exponentValue, isValue, List.getLast?_cons_cons, List.getLast?_singleton, if_true]
      omega
  case neg =>
    refine ⟨some (⟨[ascii 'e', ascii '+'], by decide⟩, ⟨digits, areDigits⟩), ?_, ?_⟩
    · simp [exponentText, exponentSuffix, negative, digits]
    · simp only [exponentOf, NumberText.exponentValue, isValue, List.getLast?_cons_cons, List.getLast?_singleton]
      rw [if_neg (by decide)]
      omega

/-! ## The general format -/

/-- The significand of a rounded magnitude. -/
theorem significantDigits_spec {digits : ℕ} (someDigits : 0 < digits) {magnitude : ℚ} (positive : 0 < magnitude) :
    let rounded := roundSignificant 10 digits magnitude
    let significand := significantDigits digits rounded (Int.log 10 rounded)
    IsSignificand significand ∧ significand.length ≤ digits ∧
      rounded = decimalValue significand * 10 ^ (Int.log 10 rounded + 1 - significand.length) := by
  intro rounded significand
  obtain ⟨value, isValue, atLeast, below⟩ := exists_significand (by decide : 1 < 10) someDigits positive
  have valuePositive : 0 < value := (Nat.pow_pos (by decide)).trans_le atLeast
  have isDecimal : decimal ⌊rounded * 10 ^ ((digits : ℤ) - 1 - Int.log 10 rounded)⌋₊ = decimal value := by
    have sameValue : rounded * 10 ^ ((digits : ℤ) - 1 - Int.log 10 rounded) = value := by exact_mod_cast isValue
    rw [sameValue, Nat.floor_natCast]
  obtain ⟨count, isText⟩ := exists_dropZeros (decimal value)
  have isSignificand : significand = dropZeros (decimal value) := by
    rw [← isDecimal]
    rfl
  rw [← isSignificand] at isText
  have values : decimalValue significand * 10 ^ count = value := by
    have sameValue := decimalValue_decimal value
    rwa [isText, decimalValue_append, length_zeros, decimalValue_zeros, Nat.add_zero] at sameValue
  have nonempty : significand ≠ [] := by
    intro isEmpty
    rw [isEmpty] at values
    simp only [decimalValue, List.foldl_nil, Nat.zero_mul] at values
    omega
  have length : significand.length + count = digits := by
    have isLength := length_decimal valuePositive
    rw [isText, List.length_append, length_zeros] at isLength
    have logarithm : Nat.log 10 value = digits - 1 :=
      Nat.log_eq_of_pow_le_of_lt_pow atLeast (by rwa [Nat.sub_add_cancel someDigits])
    omega
  refine ⟨⟨nonempty, fun byte isByte => ?_, fun startsZero => ?_⟩, by omega, ?_⟩
  · apply (isDigits_decimal value).2
    rw [isText]
    exact List.mem_append_left _ isByte
  · have isZero := decimal_head value (by rw [isText, List.head?_append_of_ne_nil _ nonempty, startsZero])
    have sameValue := decimalValue_decimal value
    rw [isZero] at sameValue
    exact valuePositive.ne (sameValue.symm.trans (by decide)).symm
  · have scaled : rounded * 10 ^ ((digits : ℤ) - 1 - Int.log 10 rounded) =
        (decimalValue significand * 10 ^ count : ℕ) := by
      rw [values]
      exact_mod_cast isValue
    have scaleNonzero : (10 : ℚ) ^ ((digits : ℤ) - 1 - Int.log 10 rounded) ≠ 0 := zpow_ne_zero _ (by norm_num)
    rw [eq_comm, ← mul_left_inj' scaleNonzero, scaled, mul_assoc, ← zpow_add₀ (by norm_num)]
    push_cast
    rw [← zpow_natCast]
    congr 2
    omega

/-- The printed text is a number, and its value is the rounded magnitude. -/
theorem exists_generalText {digits : ℕ} (someDigits : 0 < digits) {magnitude : ℚ} (nonnegative : 0 ≤ magnitude) :
    ∃ number : NumberText, number.negative = false ∧ number.text = generalText digits magnitude ∧
      number.magnitude = roundSignificant 10 digits magnitude := by
  cases nonnegative.eq_or_lt with
  | inl isZero =>
    refine ⟨⟨false, ⟨[ascii '0'], by decide⟩, none, none⟩, rfl, ?_, ?_⟩
    · rw [← isZero, generalText, if_pos rfl]
      rfl
    · rw [← isZero, roundSignificant_zero]
      simp [NumberText.magnitude, NumberText.fractionDigits, decimalValue]
  | inr positive =>
    obtain ⟨significand, short, isRounded⟩ := significantDigits_spec someDigits positive
    have longEnough : 0 < (significantDigits digits (roundSignificant 10 digits magnitude)
        (Int.log 10 (roundSignificant 10 digits magnitude))).length := List.length_pos_of_ne_nil significand.nonempty
    rw [generalText, if_neg positive.ne']
    simp only
    generalize Int.log 10 (roundSignificant 10 digits magnitude) = exponent at *
    generalize significantDigits digits (roundSignificant 10 digits magnitude) exponent = written at *
    split
    case isTrue =>
      obtain ⟨suffix, isSuffix, isExponent⟩ := exists_exponentText exponent
      obtain ⟨number, isPositive, isText, isMagnitude⟩ :=
        exists_pointNumber significand Nat.one_pos longEnough suffix
      refine ⟨number, isPositive, by rw [isText, isSuffix], ?_⟩
      rw [isMagnitude, isExponent, isRounded]
      congr 2
      omega
    case isFalse notScientific =>
      split
      case isTrue negative =>
        obtain ⟨number, isPositive, isText, isMagnitude⟩ := exists_smallNumber significand (-exponent - 1).toNat
        refine ⟨number, isPositive, isText, ?_⟩
        rw [isMagnitude, isRounded]
        congr 2
        omega
      case isFalse notNegative =>
        have padded := significand.append_zeros (exponent.toNat + 1 - written.length)
        obtain ⟨number, isPositive, isText, isMagnitude⟩ := exists_pointNumber padded
          (Nat.succ_pos exponent.toNat) (by rw [List.length_append, length_zeros]; omega) none
        refine ⟨number, isPositive, by rw [isText]; exact List.append_nil _, ?_⟩
        rw [isMagnitude, isRounded, decimalValue_append, decimalValue_zeros, length_zeros, List.length_append, length_zeros]
        push_cast
        rw [add_zero, mul_assoc, ← zpow_natCast, ← zpow_add₀ (by norm_num)]
        congr 2
        have noExponent : exponentOf none = 0 := rfl
        omega

end CutPlan.Lib.Json
