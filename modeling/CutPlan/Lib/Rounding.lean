import Mathlib.Data.Rat.Floor
import Mathlib.Data.Int.Log
import Mathlib.Tactic.Linarith
import Mathlib.Tactic.NormNum
import Mathlib.Tactic.Positivity

/-! # Rounding to a number of significant digits

Magnitudes are rounded to the nearest number of so many digits in a base, ties to even.  Doubles are the
numbers of 53 binary digits whose exponent is in range, and finer numbers of a fixed spacing next to zero.
-/

namespace CutPlan.Lib

/-- Rounding to the nearest integer, ties to even. -/
def nearestEven (value : ℚ) : ℤ :=
  let below := ⌊value⌋
  if value - below < 1 / 2 then below
  else if 1 / 2 < value - below then below + 1
  else if 2 ∣ below then below else below + 1

/-- The nearest number with so many significant digits in a base. -/
def roundSignificant (base digits : ℕ) (magnitude : ℚ) : ℚ :=
  if magnitude = 0 then 0
  else
    let scale : ℚ := (base : ℚ) ^ ((digits : ℤ) - 1 - Int.log base magnitude)
    nearestEven (magnitude * scale) / scale

@[simp] theorem nearestEven_intCast (value : ℤ) : nearestEven (value : ℚ) = value := by
  simp [nearestEven]

theorem nearestEven_cases (value : ℚ) : nearestEven value = ⌊value⌋ ∨ nearestEven value = ⌊value⌋ + 1 := by
  rw [nearestEven]
  split
  · exact .inl rfl
  · split
    · exact .inr rfl
    · split
      · exact .inl rfl
      · exact .inr rfl

theorem floor_le_nearestEven (value : ℚ) : ⌊value⌋ ≤ nearestEven value := by
  cases nearestEven_cases value with
  | inl same => exact same.ge
  | inr above => omega

theorem nearestEven_mono {first second : ℚ} (ordered : first ≤ second) :
    nearestEven first ≤ nearestEven second := by
  cases (Int.floor_mono ordered).lt_or_eq with
  | inl lower =>
    have above := floor_le_nearestEven second
    cases nearestEven_cases first <;> omega
  | inr same =>
    -- The same integer is below both, so only the distances from it matter.
    rw [nearestEven, nearestEven, same]
    split_ifs <;> first | omega | (exfalso; linarith)

theorem le_nearestEven {bound : ℤ} {value : ℚ} (below : (bound : ℚ) ≤ value) : bound ≤ nearestEven value := by
  have rounded := nearestEven_mono below
  rwa [nearestEven_intCast] at rounded

theorem nearestEven_le {bound : ℤ} {value : ℚ} (above : value ≤ (bound : ℚ)) : nearestEven value ≤ bound := by
  have rounded := nearestEven_mono above
  rwa [nearestEven_intCast] at rounded

section Significant

variable {base digits : ℕ}

theorem base_zpow_pos (large : 1 < base) (exponent : ℤ) : (0 : ℚ) < (base : ℚ) ^ exponent :=
  zpow_pos (by exact_mod_cast (Nat.zero_lt_of_lt large)) exponent

@[simp] theorem roundSignificant_zero : roundSignificant base digits 0 = 0 := if_pos rfl

theorem roundSignificant_of_pos {magnitude : ℚ} (positive : 0 < magnitude) :
    roundSignificant base digits magnitude =
      nearestEven (magnitude * (base : ℚ) ^ ((digits : ℤ) - 1 - Int.log base magnitude)) /
        (base : ℚ) ^ ((digits : ℤ) - 1 - Int.log base magnitude) :=
  if_neg positive.ne'

/-- Rounding stays between the powers of the base around a number. -/
theorem zpow_log_le_roundSignificant (large : 1 < base) (someDigits : 0 < digits) {magnitude : ℚ}
    (positive : 0 < magnitude) :
    (base : ℚ) ^ Int.log base magnitude ≤ roundSignificant base digits magnitude := by
  have scalePositive := base_zpow_pos large ((digits : ℤ) - 1 - Int.log base magnitude)
  have baseNonzero : (base : ℚ) ≠ 0 := by exact_mod_cast (Nat.zero_lt_of_lt large).ne'
  have lower := Int.zpow_log_le_self large positive
  rw [roundSignificant_of_pos positive, le_div_iff₀ scalePositive, ← zpow_add₀ baseNonzero]
  obtain ⟨exponent, rfl⟩ : ∃ exponent, digits = exponent + 1 := ⟨digits - 1, by omega⟩
  have power : Int.log base magnitude + (((exponent + 1 : ℕ) : ℤ) - 1 - Int.log base magnitude) = (exponent : ℤ) := by
    push_cast
    ring
  have scaled := mul_le_mul_of_nonneg_right lower scalePositive.le
  rw [← zpow_add₀ baseNonzero, power] at scaled
  rw [power]
  have rounded : (base : ℤ) ^ exponent ≤
      nearestEven (magnitude * (base : ℚ) ^ (((exponent + 1 : ℕ) : ℤ) - 1 - Int.log base magnitude)) :=
    le_nearestEven (by push_cast; rwa [zpow_natCast] at scaled)
  rw [zpow_natCast]
  exact_mod_cast rounded

theorem roundSignificant_le_zpow_log (large : 1 < base) {magnitude : ℚ} (positive : 0 < magnitude) :
    roundSignificant base digits magnitude ≤ (base : ℚ) ^ (Int.log base magnitude + 1) := by
  have scalePositive := base_zpow_pos large ((digits : ℤ) - 1 - Int.log base magnitude)
  have baseNonzero : (base : ℚ) ≠ 0 := by exact_mod_cast (Nat.zero_lt_of_lt large).ne'
  have upper := Int.lt_zpow_succ_log_self large magnitude
  have power : Int.log base magnitude + 1 + ((digits : ℤ) - 1 - Int.log base magnitude) = (digits : ℤ) := by ring
  have scaled := mul_le_mul_of_nonneg_right upper.le scalePositive.le
  rw [← zpow_add₀ baseNonzero, power] at scaled
  rw [roundSignificant_of_pos positive, div_le_iff₀ scalePositive, ← zpow_add₀ baseNonzero, power]
  have rounded : nearestEven (magnitude * (base : ℚ) ^ ((digits : ℤ) - 1 - Int.log base magnitude)) ≤
      (base : ℤ) ^ digits :=
    nearestEven_le (by push_cast; rwa [zpow_natCast] at scaled)
  rw [zpow_natCast]
  exact_mod_cast rounded

theorem roundSignificant_pos (large : 1 < base) (someDigits : 0 < digits) {magnitude : ℚ}
    (positive : 0 < magnitude) : 0 < roundSignificant base digits magnitude :=
  (base_zpow_pos large _).trans_le (zpow_log_le_roundSignificant large someDigits positive)

theorem roundSignificant_mono (large : 1 < base) (someDigits : 0 < digits) {first second : ℚ}
    (nonnegative : 0 ≤ first) (ordered : first ≤ second) :
    roundSignificant base digits first ≤ roundSignificant base digits second := by
  cases nonnegative.eq_or_lt with
  | inl isZero =>
    subst isZero
    rw [roundSignificant_zero]
    cases ordered.eq_or_lt with
    | inl isZero => rw [← isZero, roundSignificant_zero]
    | inr positive => exact (roundSignificant_pos large someDigits positive).le
  | inr positive =>
    have secondPositive := positive.trans_le ordered
    cases (Int.log_mono_right positive ordered : Int.log base first ≤ Int.log base second).eq_or_lt with
    | inl same =>
      rw [roundSignificant_of_pos positive, roundSignificant_of_pos secondPositive, same]
      have scalePositive := base_zpow_pos large ((digits : ℤ) - 1 - Int.log base second)
      apply div_le_div_of_nonneg_right _ scalePositive.le
      exact_mod_cast nearestEven_mono (mul_le_mul_of_nonneg_right ordered scalePositive.le)
    | inr lower =>
      -- A power of the base lies between the two.
      have baseLarge : (1 : ℚ) ≤ base := by exact_mod_cast large.le
      calc roundSignificant base digits first ≤ (base : ℚ) ^ (Int.log base first + 1) :=
            roundSignificant_le_zpow_log large positive
        _ ≤ (base : ℚ) ^ Int.log base second := zpow_le_zpow_right₀ baseLarge lower
        _ ≤ roundSignificant base digits second := zpow_log_le_roundSignificant large someDigits secondPositive

/-- A number of so many digits is kept. -/
theorem roundSignificant_of_digits (large : 1 < base) {significand : ℕ} {exponent : ℤ}
    (short : significand < base ^ digits) :
    roundSignificant base digits (significand * (base : ℚ) ^ exponent) = significand * (base : ℚ) ^ exponent := by
  cases significand.eq_zero_or_pos with
  | inl isZero => simp [isZero]
  | inr isPositive =>
    have baseNonzero : (base : ℚ) ≠ 0 := by exact_mod_cast (Nat.zero_lt_of_lt large).ne'
    have powerPositive := base_zpow_pos large exponent
    have positive : (0 : ℚ) < significand * (base : ℚ) ^ exponent :=
      mul_pos (by exact_mod_cast isPositive) powerPositive
    have below : (significand : ℚ) * (base : ℚ) ^ exponent < (base : ℚ) ^ ((digits : ℤ) + exponent) := by
      rw [zpow_add₀ baseNonzero, zpow_natCast]
      exact mul_lt_mul_of_pos_right (by exact_mod_cast short) powerPositive
    have log := (Int.lt_zpow_iff_log_lt large positive).mp below
    rw [roundSignificant_of_pos positive]
    generalize isLog : Int.log base (significand * (base : ℚ) ^ exponent : ℚ) = logarithm at log ⊢
    obtain ⟨shift, isShift⟩ := Int.eq_ofNat_of_zero_le (show 0 ≤ exponent + ((digits : ℤ) - 1 - logarithm) by omega)
    have whole : (significand : ℚ) * (base : ℚ) ^ exponent * (base : ℚ) ^ ((digits : ℤ) - 1 - logarithm) =
        ((significand * base ^ shift : ℤ) : ℚ) := by
      rw [mul_assoc, ← zpow_add₀ baseNonzero, isShift]
      push_cast
      rw [zpow_natCast]
    rw [whole, nearestEven_intCast, ← whole]
    exact mul_div_cancel_right₀ _ (base_zpow_pos large _).ne'

theorem log_eq {base : ℕ} (large : 1 < base) {magnitude : ℚ} {exponent : ℤ}
    (above : (base : ℚ) ^ exponent ≤ magnitude) (below : magnitude < (base : ℚ) ^ (exponent + 1)) :
    Int.log base magnitude = exponent := by
  have positive := (base_zpow_pos large exponent).trans_le above
  have atLeast := (Int.zpow_le_iff_le_log large positive).mp above
  have less := (Int.lt_zpow_iff_log_lt large positive).mp below
  omega

/-- The significand of a rounded number has all the digits. -/
theorem exists_significand (large : 1 < base) (someDigits : 0 < digits) {magnitude : ℚ} (positive : 0 < magnitude) :
    let rounded := roundSignificant base digits magnitude
    ∃ significand : ℕ, rounded * (base : ℚ) ^ ((digits : ℤ) - 1 - Int.log base rounded) = significand ∧
      base ^ (digits - 1) ≤ significand ∧ significand < base ^ digits := by
  intro rounded
  have baseNonzero : (base : ℚ) ≠ 0 := by exact_mod_cast (Nat.zero_lt_of_lt large).ne'
  have baseLarge : (1 : ℚ) < base := by exact_mod_cast large
  have roundedPositive : 0 < rounded := roundSignificant_pos large someDigits positive
  have above : (base : ℚ) ^ Int.log base magnitude ≤ rounded := zpow_log_le_roundSignificant large someDigits positive
  have below : rounded ≤ (base : ℚ) ^ (Int.log base magnitude + 1) := roundSignificant_le_zpow_log large positive
  have scalePositive := base_zpow_pos large ((digits : ℤ) - 1 - Int.log base rounded)
  have lower := mul_le_mul_of_nonneg_right (Int.zpow_log_le_self large roundedPositive) scalePositive.le
  have upper := mul_lt_mul_of_pos_right (Int.lt_zpow_succ_log_self large rounded) scalePositive
  rw [← zpow_add₀ baseNonzero] at lower upper
  have lowerPower : Int.log base rounded + ((digits : ℤ) - 1 - Int.log base rounded) = ((digits - 1 : ℕ) : ℤ) := by
    omega
  have upperPower : Int.log base rounded + 1 + ((digits : ℤ) - 1 - Int.log base rounded) = (digits : ℤ) := by ring
  rw [lowerPower, zpow_natCast] at lower
  rw [upperPower, zpow_natCast] at upper
  have whole : ∃ significand : ℕ, rounded * (base : ℚ) ^ ((digits : ℤ) - 1 - Int.log base rounded) = significand := by
    cases below.lt_or_eq with
    | inl less =>
      have sameLog : Int.log base rounded = Int.log base magnitude := log_eq large above less
      have nonnegative : 0 ≤ magnitude * (base : ℚ) ^ ((digits : ℤ) - 1 - Int.log base magnitude) :=
        mul_nonneg positive.le (base_zpow_pos large _).le
      obtain ⟨significand, isSignificand⟩ := Int.eq_ofNat_of_zero_le
        (le_nearestEven (by exact_mod_cast nonnegative) :
          0 ≤ nearestEven (magnitude * (base : ℚ) ^ ((digits : ℤ) - 1 - Int.log base magnitude)))
      refine ⟨significand, ?_⟩
      rw [sameLog]
      calc rounded * (base : ℚ) ^ ((digits : ℤ) - 1 - Int.log base magnitude) =
            nearestEven (magnitude * (base : ℚ) ^ ((digits : ℤ) - 1 - Int.log base magnitude)) := by
            rw [show rounded = roundSignificant base digits magnitude from rfl, roundSignificant_of_pos positive]
            exact div_mul_cancel₀ _ (base_zpow_pos large _).ne'
        _ = significand := by rw [isSignificand]; norm_cast
    | inr same =>
      -- The digits were all the greatest ones and became a power of the base.
      have isLog : Int.log base rounded = Int.log base magnitude + 1 := by rw [same, Int.log_zpow large]
      refine ⟨base ^ (digits - 1), ?_⟩
      rw [same, ← same, isLog, same, ← zpow_add₀ baseNonzero]
      have power : Int.log base magnitude + 1 + ((digits : ℤ) - 1 - (Int.log base magnitude + 1)) =
          ((digits - 1 : ℕ) : ℤ) := by omega
      rw [power, zpow_natCast]
      norm_cast
  obtain ⟨significand, isSignificand⟩ := whole
  rw [isSignificand] at lower upper
  exact ⟨significand, isSignificand, by exact_mod_cast lower, by exact_mod_cast upper⟩

end Significant

/-! ## Doubles -/

/-- The double that is read for a magnitude.  None where the nearest double is not finite, or where a number
that is too small for all the digits of a double would lose some of them. -/
def toDouble (magnitude : ℚ) : Option ℚ :=
  let rounded := roundSignificant 2 53 magnitude
  if 2 ^ (1024 : ℤ) ≤ rounded then none
  else if 2 ^ (-1022 : ℤ) ≤ rounded then some rounded
  else if (nearestEven (magnitude * 2 ^ (1074 : ℤ)) : ℚ) = magnitude * 2 ^ (1074 : ℤ) then some magnitude
  else none

def leastNormal : ℚ := 2 ^ (-1022 : ℤ)

def greatestDouble : ℚ := (2 ^ 53 - 1 : ℕ) * (2 : ℕ) ^ (971 : ℤ)

/-- The magnitudes of zero and of the doubles with all their digits. -/
def NormalOrZero (magnitude : ℚ) : Prop := magnitude = 0 ∨ leastNormal ≤ magnitude ∧ magnitude ≤ greatestDouble

@[simp] theorem toDouble_zero : toDouble 0 = some 0 := by
  have small : ¬ (2 : ℚ) ^ (1024 : ℤ) ≤ 0 := (zpow_pos (by norm_num) 1024).not_ge
  have subnormal : ¬ (2 : ℚ) ^ (-1022 : ℤ) ≤ 0 := (zpow_pos (by norm_num) (-1022)).not_ge
  have noDigits : nearestEven 0 = 0 := by exact_mod_cast nearestEven_intCast 0
  rw [toDouble, roundSignificant_zero, if_neg small, if_neg subnormal, zero_mul, noDigits]
  simp

theorem leastNormal_pos : 0 < leastNormal := zpow_pos (by norm_num) _

theorem greatestDouble_lt : greatestDouble < 2 ^ (1024 : ℤ) := by decide +kernel

theorem toDouble_of_normal {magnitude : ℚ} (normal : NormalOrZero magnitude) :
    toDouble magnitude = some (roundSignificant 2 53 magnitude) := by
  cases normal with
  | inl isZero => rw [isZero, toDouble_zero, roundSignificant_zero]
  | inr bounds =>
    have least : roundSignificant 2 53 leastNormal = leastNormal := by
      have kept : roundSignificant 2 53 ((1 : ℕ) * (2 : ℕ) ^ (-1022 : ℤ)) = (1 : ℕ) * (2 : ℕ) ^ (-1022 : ℤ) :=
        roundSignificant_of_digits (by decide) (by decide)
      rwa [Nat.cast_one, one_mul] at kept
    have greatest : roundSignificant 2 53 greatestDouble = greatestDouble :=
      roundSignificant_of_digits (by decide) (by decide)
    have above : roundSignificant 2 53 leastNormal ≤ roundSignificant 2 53 magnitude :=
      roundSignificant_mono (by decide) (by decide) leastNormal_pos.le bounds.1
    have below : roundSignificant 2 53 magnitude ≤ roundSignificant 2 53 greatestDouble :=
      roundSignificant_mono (by decide) (by decide) (leastNormal_pos.le.trans bounds.1) bounds.2
    rw [least] at above
    rw [greatest] at below
    exact (if_neg (below.trans_lt greatestDouble_lt).not_ge).trans (if_pos above)

theorem toDouble_natCast {value : ℕ} (small : value ≤ 2 ^ 53) : toDouble value = some (value : ℚ) := by
  have kept : roundSignificant 2 53 value = value := by
    cases small.lt_or_eq with
    | inl less =>
      have kept : roundSignificant 2 53 (value * (2 : ℕ) ^ (0 : ℤ)) = value * (2 : ℕ) ^ (0 : ℤ) :=
        roundSignificant_of_digits (by decide) less
      rwa [zpow_zero, mul_one] at kept
    | inr same =>
      have kept : roundSignificant 2 53 ((1 : ℕ) * (2 : ℕ) ^ (53 : ℤ)) = (1 : ℕ) * (2 : ℕ) ^ (53 : ℤ) :=
        roundSignificant_of_digits (by decide) (by decide)
      rw [same]
      norm_num at kept ⊢
      exact kept
  rw [toDouble_of_normal, kept]
  cases value.eq_zero_or_pos with
  | inl isZero => exact .inl (by simp [isZero])
  | inr positive =>
    have atLeastOne : (1 : ℚ) ≤ value := by exact_mod_cast positive
    have atMost : (value : ℚ) ≤ 2 ^ 53 := by exact_mod_cast small
    have leastSmall : leastNormal ≤ 1 := zpow_le_one_of_nonpos₀ (by norm_num) (by norm_num)
    have greatestLarge : (2 : ℚ) ^ 53 ≤ greatestDouble := by decide +kernel
    exact .inr ⟨leastSmall.trans atLeastOne, atMost.trans greatestLarge⟩

/-! Seventeen decimal digits do not lead out of the range of the doubles. -/

theorem leastNormal_le_printed : leastNormal ≤ roundSignificant 10 17 leastNormal := by
  have isLog : Int.log 10 leastNormal = -308 := log_eq (by decide) (by decide +kernel) (by decide +kernel)
  rw [roundSignificant_of_pos leastNormal_pos, isLog]
  decide +kernel

theorem printed_le_greatestDouble : roundSignificant 10 17 greatestDouble ≤ greatestDouble := by
  have positive : 0 < greatestDouble := by decide +kernel
  have isLog : Int.log 10 greatestDouble = 308 := log_eq (by decide) (by decide +kernel) (by decide +kernel)
  rw [roundSignificant_of_pos positive, isLog]
  decide +kernel

theorem normalOrZero_printed {magnitude : ℚ} (normal : NormalOrZero magnitude) :
    NormalOrZero (roundSignificant 10 17 magnitude) := by
  cases normal with
  | inl isZero => exact .inl (by rw [isZero, roundSignificant_zero])
  | inr bounds =>
    have above : roundSignificant 10 17 leastNormal ≤ roundSignificant 10 17 magnitude :=
      roundSignificant_mono (by decide) (by decide) leastNormal_pos.le bounds.1
    have below : roundSignificant 10 17 magnitude ≤ roundSignificant 10 17 greatestDouble :=
      roundSignificant_mono (by decide) (by decide) (leastNormal_pos.le.trans bounds.1) bounds.2
    exact .inr ⟨leastNormal_le_printed.trans above, below.trans printed_le_greatestDouble⟩

end CutPlan.Lib
