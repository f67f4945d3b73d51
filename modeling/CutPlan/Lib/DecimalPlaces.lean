import Mathlib.Algebra.Group.Subgroup.ZPowers.Basic
import Mathlib.Algebra.Order.Field.Rat
import Mathlib.Algebra.Order.Round
import Mathlib.Combinatorics.Pigeonhole
import Mathlib.Data.Rat.Floor
import Mathlib.Tactic.FieldSimp
import Mathlib.Tactic.Linarith
import Mathlib.Tactic.Ring

/-! # Decimal places

The number of places after the point up to which a number is an integer, within a tolerance, and the
multiples of a power of ten.  The search ends at the denominator: by then the remainders repeat.
-/

namespace CutPlan.Lib

/-- How far the number is from the next integer. -/
def fractionalPart (value : ℚ) : ℚ := |round value - value|

def IsIntegral (tolerance value : ℚ) (places : ℕ) : Bool :=
  fractionalPart (10 ^ places * value) < tolerance

/-- The fewest places up to which the number is an integer, if there are any. -/
def decimalPlaces (tolerance value : ℚ) : Option ℕ :=
  (List.range (value.den + 1)).find? (IsIntegral tolerance value)

/-! ## Multiples of a power of ten -/

/-- The unit of the last of the places. -/
def placeUnit (places : ℕ) : ℚ := ((10 : ℚ) ^ places)⁻¹

theorem placeUnit_pos (places : ℕ) : 0 < placeUnit places := by
  unfold placeUnit
  positivity

theorem placeUnit_antitone : Antitone placeUnit := by
  intro fewer more le
  unfold placeUnit
  gcongr
  norm_num

theorem mem_zmultiples_placeUnit {places : ℕ} {value : ℚ} :
    value ∈ AddSubgroup.zmultiples (placeUnit places) ↔ ∃ count : ℤ, 10 ^ places * value = count := by
  unfold placeUnit
  rw [AddSubgroup.mem_zmultiples_iff]
  constructor
  · rintro ⟨count, rfl⟩
    exact ⟨count, by rw [zsmul_eq_mul]; field_simp⟩
  · rintro ⟨count, isCount⟩
    refine ⟨count, ?_⟩
    rw [zsmul_eq_mul, ← isCount]
    field_simp

theorem zmultiples_placeUnit_le {fewer more : ℕ} (le : fewer ≤ more) :
    AddSubgroup.zmultiples (placeUnit fewer) ≤ AddSubgroup.zmultiples (placeUnit more) := by
  intro value member
  obtain ⟨count, isCount⟩ := mem_zmultiples_placeUnit.mp member
  refine mem_zmultiples_placeUnit.mpr ⟨10 ^ (more - fewer) * count, ?_⟩
  have split : more = more - fewer + fewer := by omega
  rw [split, pow_add, mul_assoc, isCount, Nat.add_sub_cancel]
  push_cast
  ring

/-- A positive multiple is at least the unit. -/
theorem le_of_mem_zmultiples {unit value : ℚ} (unitPos : 0 < unit)
    (member : value ∈ AddSubgroup.zmultiples unit) (positive : 0 < value) : unit ≤ value := by
  obtain ⟨count, rfl⟩ := AddSubgroup.mem_zmultiples_iff.mp member
  rw [zsmul_eq_mul] at positive ⊢
  have countPos : 0 < count := by
    by_contra nonpos
    have nonposCast : (count : ℚ) ≤ 0 := by exact_mod_cast not_lt.mp nonpos
    exact absurd (mul_nonpos_of_nonpos_of_nonneg nonposCast unitPos.le) (not_le.mpr positive)
  have one_le : (1 : ℚ) ≤ count := by exact_mod_cast countPos
  exact le_mul_of_one_le_left unitPos.le one_le

end CutPlan.Lib
