import Mathlib.Data.Rat.Floor
import Mathlib.Tactic

/-! # Rational numbers stored in machine integers

A C++ assignment from a floating-point value to an integer member truncates towards zero.  The
value is undefined when the truncation does not fit the target; the functions below follow the
conversion instruction of the x86-64 build, which then yields the smallest integer.  A signed
bit-field keeps the low bits of the converted integer.
-/

namespace CutPlan.Lib

/-! ## Truncation -/

def truncate (value : ℚ) : ℤ :=
  if 0 ≤ value then ⌊value⌋ else ⌈value⌉

@[simp] theorem truncate_intCast (number : ℤ) : truncate (number : ℚ) = number := by
  unfold truncate
  split <;> simp

theorem truncate_le {value : ℚ} (nonneg : 0 ≤ value) : (truncate value : ℚ) ≤ value := by
  rw [truncate, if_pos nonneg]
  exact Int.floor_le value

/-! ## Conversion to `int` -/

def intMin : ℤ := -2147483648

def intMax : ℤ := 2147483647

/-- Conversion to a 32-bit `int`; a truncation outside the range becomes `intMin`. -/
def toInt (value : ℚ) : ℤ :=
  if intMin ≤ truncate value ∧ truncate value ≤ intMax then truncate value else intMin

theorem toInt_of_mem {number : ℤ} (lower : intMin ≤ number) (upper : number ≤ intMax) :
    toInt (number : ℚ) = number := by
  simp [toInt, lower, upper]

theorem toInt_le {value : ℚ} (nonneg : 0 ≤ value) : (toInt value : ℚ) ≤ value := by
  unfold toInt
  split
  · exact truncate_le nonneg
  · have : ((intMin : ℤ) : ℚ) ≤ 0 := by norm_num [intMin]
    exact this.trans nonneg

/-- The values a conversion to `int` reproduces: the integers of its range. -/
def FitsInt (value : ℚ) : Prop :=
  ∃ number : ℤ, value = number ∧ intMin ≤ number ∧ number ≤ intMax

theorem toInt_eq_iff (value : ℚ) : (toInt value : ℚ) = value ↔ FitsInt value := by
  constructor
  · intro same
    refine ⟨toInt value, same.symm, ?_⟩
    unfold toInt
    split
    next range => exact range
    next => exact ⟨le_refl _, by decide⟩
  · rintro ⟨number, rfl, lower, upper⟩
    rw [toInt_of_mem lower upper]

/-! ## Bit-fields -/

/-- The value kept by a signed bit-field of the given width. -/
def toBitField (width : ℕ) (number : ℤ) : ℤ :=
  Int.bmod number (2 ^ width)

theorem toBitField_of_mem {width : ℕ} {number : ℤ}
    (lower : -(2 ^ width : ℤ) ≤ 2 * number) (upper : 2 * number < 2 ^ width) :
    toBitField width number = number := by
  unfold toBitField
  apply Int.bmod_eq_of_le_mul_two
  · push_cast; linarith
  · push_cast; linarith

end CutPlan.Lib
