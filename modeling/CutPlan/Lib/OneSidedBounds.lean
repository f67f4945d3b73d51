import Mathlib.Algebra.BigOperators.Group.Finset.Piecewise
import Mathlib.Algebra.Order.Field.Basic
import Mathlib.Tactic.Linarith

/-! # One-sided bounds of linear expressions

Upper and lower bounds obey the same rules with the order reversed.  A table gives an upper and a lower
bound for each variable, or none; it bounds linear expressions in which coefficients below a threshold
are taken for zero.
-/

namespace CutPlan.Lib

variable {α : Type*}

inductive Side where
  | upper
  | lower
  deriving DecidableEq, Repr

namespace Side

def opposite : Side → Side
  | upper => lower
  | lower => upper

section Order

variable [LinearOrder α]

/-- The bound is not exceeded. -/
def Bounds (side : Side) (bound value : α) : Prop :=
  match side with
  | upper => value ≤ bound
  | lower => bound ≤ value

instance (side : Side) (bound value : α) : Decidable (side.Bounds bound value) :=
  match side with
  | upper => inferInstanceAs (Decidable (value ≤ bound))
  | lower => inferInstanceAs (Decidable (bound ≤ value))

/-- The sharper of two bounds. -/
def tighten (side : Side) (first second : α) : α :=
  match side with
  | upper => min first second
  | lower => max first second

/-- The bound together with the one there is already, if any. -/
def tightenSome (side : Side) (current : Option α) (bound : α) : α :=
  match current with
  | none => bound
  | some current => side.tighten current bound

/-- A bound for both. -/
def widen (side : Side) (first second : α) : α :=
  match side with
  | upper => max first second
  | lower => min first second

@[simp] theorem Bounds.rfl (side : Side) (value : α) : side.Bounds value value := by
  cases side with
  | upper => exact le_refl value
  | lower => exact le_refl value

theorem Bounds.tighten {side : Side} {first second value : α} (isFirst : side.Bounds first value)
    (isSecond : side.Bounds second value) : side.Bounds (side.tighten first second) value := by
  cases side with
  | upper => exact le_min isFirst isSecond
  | lower => exact max_le isFirst isSecond

theorem Bounds.tightenSome {side : Side} {current : Option α} {bound value : α}
    (isCurrent : ∀ other, current = some other → side.Bounds other value)
    (isBound : side.Bounds bound value) : side.Bounds (side.tightenSome current bound) value := by
  cases current with
  | none => exact isBound
  | some other => exact (isCurrent other (Eq.refl _)).tighten isBound

theorem Bounds.widen_left {side : Side} {first value : α} (isFirst : side.Bounds first value)
    (second : α) : side.Bounds (side.widen first second) value := by
  cases side with
  | upper => exact le_max_of_le_left isFirst
  | lower => exact min_le_of_left_le isFirst

theorem Bounds.widen_right {side : Side} {second value : α} (isSecond : side.Bounds second value)
    (first : α) : side.Bounds (side.widen first second) value := by
  cases side with
  | upper => exact le_max_of_le_right isSecond
  | lower => exact min_le_of_right_le isSecond

theorem widen_eq_right {side : Side} {first second : α} (bounds : side.Bounds second first) :
    side.widen first second = second := by
  cases side with
  | upper => exact max_eq_right bounds
  | lower => exact min_eq_right bounds

theorem Bounds.trans {side : Side} {first second value : α} (outer : side.Bounds first second)
    (inner : side.Bounds second value) : side.Bounds first value := by
  cases side with
  | upper => exact le_trans inner outer
  | lower => exact le_trans outer inner

end Order

variable [Field α] [LinearOrder α] [IsStrictOrderedRing α]

/-- How far the value lies in the direction of the bound. -/
def signed (side : Side) (value : α) : α :=
  match side with
  | upper => value
  | lower => -value

theorem bounds_iff {side : Side} {bound value : α} :
    side.Bounds bound value ↔ side.signed value ≤ side.signed bound := by
  cases side with
  | upper => exact Iff.rfl
  | lower => exact neg_le_neg_iff.symm

theorem Bounds.add {side : Side} {first second firstValue secondValue : α}
    (isFirst : side.Bounds first firstValue) (isSecond : side.Bounds second secondValue) :
    side.Bounds (first + second) (firstValue + secondValue) := by
  cases side with
  | upper => exact add_le_add isFirst isSecond
  | lower => exact add_le_add isFirst isSecond

theorem Bounds.mul_of_nonneg {side : Side} {bound value weight : α} (nonneg : 0 ≤ weight)
    (bounds : side.Bounds bound value) : side.Bounds (weight * bound) (weight * value) := by
  cases side with
  | upper => exact mul_le_mul_of_nonneg_left bounds nonneg
  | lower => exact mul_le_mul_of_nonneg_left bounds nonneg

theorem Bounds.mul_of_nonpos {side : Side} {bound value weight : α} (nonpos : weight ≤ 0)
    (bounds : side.opposite.Bounds bound value) : side.Bounds (weight * bound) (weight * value) := by
  cases side with
  | upper => exact mul_le_mul_of_nonpos_left bounds nonpos
  | lower => exact mul_le_mul_of_nonpos_left bounds nonpos

end Side

/-! ## Tables of bounds -/

/-- An upper and a lower bound, each of which can be missing. -/
abbrev BoundPair (α : Type*) := Side → Option α

namespace BoundPair

variable [LinearOrder α]

def none : BoundPair α := fun _ => Option.none

/-- Both bounds are the value. -/
def exactly (value : α) : BoundPair α := fun _ => some value

def Bracket (bounds : BoundPair α) (value : α) : Prop :=
  ∀ side bound, bounds side = some bound → side.Bounds bound value

theorem none_bracket (value : α) : (none : BoundPair α).Bracket value := by
  intro side bound isBound
  cases isBound

theorem exactly_bracket (value : α) : (exactly value).Bracket value := by
  intro side bound isBound
  rw [exactly, Option.some.injEq] at isBound
  subst isBound
  exact Side.Bounds.rfl side value

end BoundPair

/-! ## Linear expressions -/

section Linear

variable [Field α] [LinearOrder α] [IsStrictOrderedRing α] (threshold : α)

/-- Every coefficient is zero or reaches the threshold. -/
def Representable (coefficient : α) : Prop :=
  |coefficient| < threshold → coefficient = 0

omit [IsStrictOrderedRing α] in
instance (coefficient : α) : Decidable (Representable threshold coefficient) :=
  inferInstanceAs (Decidable (|coefficient| < threshold → coefficient = 0))

/-- A bound of the product of a coefficient and a variable. -/
def termBound (side : Side) (coefficient : α) (bounds : BoundPair α) : Option α :=
  if threshold ≤ coefficient then (bounds side).map (coefficient * ·)
  else if coefficient ≤ -threshold then (bounds side.opposite).map (coefficient * ·)
  else some 0

/-- The sum of the bounds of all terms but one, if there are all of them. -/
def sumBound (side : Side) (coefficients : ℕ → α) (bounds : ℕ → BoundPair α) (skip : ℕ) :
    ℕ → α → Option α
  | 0, constant => some constant
  | count + 1, constant => do
    let total ← sumBound side coefficients bounds skip count constant
    if count = skip then some total
    else
      let term ← termBound threshold side (coefficients count) (bounds count)
      some (total + term)

variable {threshold}

theorem termBound_bounds {side : Side} {coefficient value bound : α} {bounds : BoundPair α}
    (positive : 0 < threshold) (representable : Representable threshold coefficient)
    (bracket : bounds.Bracket value)
    (isBound : termBound threshold side coefficient bounds = some bound) :
    side.Bounds bound (coefficient * value) := by
  unfold termBound at isBound
  split at isBound
  · rename_i large
    rw [Option.map_eq_some_iff] at isBound
    obtain ⟨variableBound, isVariableBound, rfl⟩ := isBound
    exact (bracket side _ isVariableBound).mul_of_nonneg (positive.le.trans large)
  · split at isBound
    · rename_i small
      rw [Option.map_eq_some_iff] at isBound
      obtain ⟨variableBound, isVariableBound, rfl⟩ := isBound
      exact (bracket side.opposite _ isVariableBound).mul_of_nonpos (by linarith)
    · rename_i notLarge notSmall
      have zero : coefficient = 0 :=
        representable (abs_lt.mpr ⟨not_le.mp notSmall, not_le.mp notLarge⟩)
      rw [Option.some.injEq] at isBound
      rw [zero, zero_mul, ← isBound]
      exact Side.Bounds.rfl side 0

/-- The terms of a linear expression without the one that is left out. -/
def sumWithout (coefficients values : ℕ → α) (skip count : ℕ) : α :=
  ∑ var ∈ Finset.range count, if var = skip then 0 else coefficients var * values var

theorem sumBound_bounds {side : Side} {coefficients values : ℕ → α} {bounds : ℕ → BoundPair α}
    {skip count : ℕ} (positive : 0 < threshold)
    (representable : ∀ var < count, Representable threshold (coefficients var))
    (bracket : ∀ var < count, (bounds var).Bracket (values var)) {constant bound : α}
    (isBound : sumBound threshold side coefficients bounds skip count constant = some bound) :
    side.Bounds bound (constant + sumWithout coefficients values skip count) := by
  induction count generalizing bound with
  | zero =>
    rw [sumBound, Option.some.injEq] at isBound
    simp [sumWithout, isBound]
  | succ count inductionHypothesis =>
    obtain ⟨total, isTotal, isBound⟩ := Option.bind_eq_some_iff.mp isBound
    have rest := inductionHypothesis (fun var below => representable var (by omega))
      (fun var below => bracket var (by omega)) isTotal
    unfold sumWithout at rest ⊢
    rw [Finset.sum_range_succ]
    by_cases left : count = skip
    · rw [if_pos left, Option.some.injEq] at isBound
      rw [if_pos left, add_zero, ← isBound]
      exact rest
    · rw [if_neg left] at isBound ⊢
      obtain ⟨term, isTerm, isSum⟩ := Option.bind_eq_some_iff.mp isBound
      rw [Option.some.injEq] at isSum
      rw [← isSum, ← add_assoc]
      exact rest.add (termBound_bounds positive (representable count (by omega))
        (bracket count (by omega)) isTerm)

omit [LinearOrder α] [IsStrictOrderedRing α] in
theorem sum_eq_sumWithout (coefficients values : ℕ → α) {skip count : ℕ} (within : skip < count) :
    ∑ var ∈ Finset.range count, coefficients var * values var =
      coefficients skip * values skip + sumWithout coefficients values skip count := by
  have member : skip ∈ Finset.range count := Finset.mem_range.mpr within
  have split (var : ℕ) : coefficients var * values var =
      (if var = skip then coefficients skip * values skip else 0) +
        if var = skip then 0 else coefficients var * values var := by
    by_cases same : var = skip
    · simp [same]
    · simp [same]
  rw [Finset.sum_congr rfl fun var _ => split var, Finset.sum_add_distrib, Finset.sum_ite_eq' (Finset.range count) skip,
    if_pos member, sumWithout]

end Linear

end CutPlan.Lib
