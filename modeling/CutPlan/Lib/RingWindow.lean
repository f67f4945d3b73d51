import Mathlib.Algebra.BigOperators.Group.List.Basic
import Mathlib.Algebra.GroupWithZero.Nat
import Mathlib.Data.List.Rotate
import Mathlib.Data.List.TakeDrop

/-! # Windows in a ring

The first cells of a buffer are a ring that keeps the newest of a growing list of values.  Values that do not exist yet
are zero.
-/

namespace CutPlan.Lib

/-- From the cursor on, the ring has its values from the oldest to the newest. -/
structure KeepsNewest (ring : List ℕ) (width cursor : ℕ) (newest : List ℕ) : Prop where
  inRing : cursor < width
  fits : width ≤ ring.length
  ordered : (ring.take width).rotate cursor = (newest.takeD width 0).reverse

theorem takeD_succ_append (values : List ℕ) (count : ℕ) :
    values.takeD (count + 1) 0 = values.takeD count 0 ++ [values.getD count 0] := by
  induction count generalizing values with
  | zero => cases values <;> rfl
  | succ count inductionHypothesis =>
    rw [List.takeD_succ, inductionHypothesis, List.takeD_succ, List.cons_append]
    cases values <;> simp

theorem sum_takeD (values : List ℕ) (count : ℕ) : (values.takeD count 0).sum = (values.take count).sum := by
  induction count generalizing values with
  | zero => simp
  | succ count inductionHypothesis =>
    rw [List.takeD_succ, List.sum_cons, inductionHypothesis]
    cases values <;> simp

namespace KeepsNewest

variable {ring newest : List ℕ} {width cursor : ℕ}

theorem empty {size : ℕ} (inRing : cursor < width) (fits : width ≤ size) :
    KeepsNewest (List.replicate size 0) width cursor [] where
  inRing := inRing
  fits := by simpa using fits
  ordered := by simp [List.take_replicate, fits, List.rotate_replicate]

/-- A value is written over the oldest one. -/
theorem push (keeps : KeepsNewest ring width cursor newest) (value : ℕ) :
    KeepsNewest (ring.set cursor value) width ((cursor + 1) % width) (value :: newest) := by
  obtain ⟨inRing, fits, ordered⟩ := keeps
  have positive : 0 < width := by omega
  refine ⟨Nat.mod_lt _ positive, by simpa using fits, ?_⟩
  have size : (ring.take width).length = width := by
    rw [List.length_take, Nat.min_eq_left fits]
  have cell : cursor < (ring.take width).length := by omega
  have moved : (ring.set cursor value).take width = (ring.take width).set cursor value := List.take_set
  generalize ring.take width = cells at ordered size cell moved
  obtain ⟨count, rfl⟩ : ∃ count, width = count + 1 := ⟨width - 1, by omega⟩
  have newer : cells.drop (cursor + 1) ++ cells.take cursor = (newest.takeD count 0).reverse := by
    rw [List.rotate_eq_drop_append_take cell.le, List.drop_eq_getElem_cons cell, takeD_succ_append,
      List.reverse_append] at ordered
    exact (List.cons.inj ordered).2
  have sameSize : (cells.set cursor value).length = count + 1 := by rw [List.length_set, size]
  have atCell : cursor < (cells.set cursor value).length := by rwa [List.length_set]
  rw [moved]
  calc (cells.set cursor value).rotate ((cursor + 1) % (count + 1))
      = (cells.set cursor value).rotate (cursor + 1) := by
        conv_lhs => rw [← sameSize]
        rw [List.rotate_mod]
    _ = ((cells.set cursor value).rotate cursor).rotate 1 := (List.rotate_rotate _ _ _).symm
    _ = (value :: (cells.drop (cursor + 1) ++ cells.take cursor)).rotate 1 := by
        rw [List.rotate_eq_drop_append_take atCell.le, List.drop_eq_getElem_cons atCell, List.getElem_set_self,
          List.drop_set_of_lt (Nat.lt_succ_self _), List.take_set_of_le le_rfl, List.cons_append]
    _ = (newest.takeD count 0).reverse ++ [value] := by
        rw [List.rotate_cons_succ, List.rotate_zero, newer]
    _ = ((value :: newest).takeD (count + 1) 0).reverse := by
        rw [List.takeD_succ, List.reverse_cons]
        rfl

theorem sum_take (keeps : KeepsNewest ring width cursor newest) : (ring.take width).sum = (newest.take width).sum := by
  calc (ring.take width).sum
      = ((ring.take width).rotate cursor).sum := (List.rotate_perm _ _).sum_eq.symm
    _ = (newest.take width).sum := by rw [keeps.ordered, List.sum_reverse, sum_takeD]

end KeepsNewest

end CutPlan.Lib
