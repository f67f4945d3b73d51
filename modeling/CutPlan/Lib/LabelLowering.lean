import CutPlan.Lib.CheapestDerivation
import Mathlib.Algebra.Order.BigOperators.Group.Finset
import Mathlib.Data.Finset.NAry
import Mathlib.Tactic.Ring

/-! # Lowering labels

A relaxation gives a node the label of another node plus the weight of an edge, if this is less than its
label.  Then the label is the sum along a chain of edges that does not come back to a node: so only
finitely many labels can occur, and only finitely many relaxations change one.
-/

set_option linter.unusedSectionVars false

namespace CutPlan.Lib

open RuleGraph

variable {Node Cost : Type*} [AddCommMonoid Cost] [LinearOrder Cost] [IsOrderedAddMonoid Cost]

/-- The sums along chains of at most that many edges. -/
def chainCosts (starts weights : Finset Cost) : ℕ → Finset Cost
  | 0 => starts
  | length + 1 =>
    chainCosts starts weights length ∪
      Finset.image₂ (· + ·) (chainCosts starts weights length) weights

theorem chainCosts_mono (starts weights : Finset Cost) {shorter longer : ℕ} (le : shorter ≤ longer) :
    chainCosts starts weights shorter ⊆ chainCosts starts weights longer := by
  induction le with
  | refl => exact Finset.Subset.refl _
  | step _ inductionHypothesis => exact inductionHypothesis.trans Finset.subset_union_left

theorem add_mem_chainCosts {starts weights : Finset Cost} {length : ℕ} {cost weight : Cost}
    (isCost : cost ∈ chainCosts starts weights length) (isWeight : weight ∈ weights) :
    cost + weight ∈ chainCosts starts weights (length + 1) :=
  Finset.mem_union_right _ (Finset.mem_image₂_of_mem isCost isWeight)

theorem card_chainCosts_le (starts weights : Finset Cost) (length : ℕ) :
    (chainCosts starts weights length).card ≤ starts.card * (weights.card + 1) ^ length := by
  induction length with
  | zero => simp [chainCosts]
  | succ length inductionHypothesis =>
    calc (chainCosts starts weights (length + 1)).card
        ≤ (chainCosts starts weights length).card +
            (Finset.image₂ (· + ·) (chainCosts starts weights length) weights).card :=
          Finset.card_union_le _ _
      _ ≤ (chainCosts starts weights length).card +
            (chainCosts starts weights length).card * weights.card :=
          Nat.add_le_add_left (Finset.card_image₂_le _ _ _) _
      _ = (chainCosts starts weights length).card * (weights.card + 1) := by ring
      _ ≤ starts.card * (weights.card + 1) ^ length * (weights.card + 1) :=
          Nat.mul_le_mul_right _ inductionHypothesis
      _ = starts.card * (weights.card + 1) ^ (length + 1) := by ring

section Chains

variable [DecidableEq Node] {targets : Finset Node} {starts weights : Finset Cost}
  {label : Node → Option Cost} {node : Node} {cost weight : Cost}

/-- The cost is the sum along a chain of targets that are labelled no dearer. -/
def Chained (targets : Finset Node) (starts weights : Finset Cost) (label : Node → Option Cost)
    (cost : Cost) : Prop :=
  ∃ chain ⊆ targets, cost ∈ chainCosts starts weights chain.card ∧
    ∀ node ∈ chain, Within label node cost

theorem Chained.of_start (isStart : cost ∈ starts) : Chained targets starts weights label cost :=
  ⟨∅, by simp, isStart, by simp⟩

/-- Chains stay chains when labels get cheaper. -/
theorem Chained.mono {after : Node → Option Cost} (chained : Chained targets starts weights label cost)
    (cheaper : ∀ node bound, Within label node bound → Within after node bound) :
    Chained targets starts weights after cost := by
  obtain ⟨chain, subset, isCost, within⟩ := chained
  exact ⟨chain, subset, isCost, fun node member => cheaper node cost (within node member)⟩

theorem Chained.mem (chained : Chained targets starts weights label cost) :
    cost ∈ chainCosts starts weights targets.card := by
  obtain ⟨chain, subset, isCost, -⟩ := chained
  exact chainCosts_mono starts weights (Finset.card_le_card subset) isCost

/-- A node that is lowered is not on the chain that lowers it. -/
theorem Chained.extend (chained : Chained targets starts weights label cost)
    (isTarget : node ∈ targets) (isWeight : weight ∈ weights) (nonneg : 0 ≤ weight)
    (lowers : ∀ old, label node = some old → cost + weight < old)
    {after : Node → Option Cost} (lowered : Within after node (cost + weight))
    (cheaper : ∀ other bound, Within label other bound → Within after other bound) :
    Chained targets starts weights after (cost + weight) := by
  obtain ⟨chain, subset, isCost, within⟩ := chained
  have le : cost ≤ cost + weight := le_add_of_nonneg_right nonneg
  have absent : node ∉ chain := by
    intro member
    obtain ⟨old, labelled, oldLe⟩ := within node member
    exact absurd (lowers old labelled) (not_lt.mpr (oldLe.trans le))
  refine ⟨insert node chain, Finset.insert_subset isTarget subset, ?_, ?_⟩
  · rw [Finset.card_insert_of_notMem absent]
    exact add_mem_chainCosts isCost isWeight
  · intro other member
    cases Finset.mem_insert.mp member with
    | inl isNode => exact isNode ▸ lowered
    | inr inChain => exact cheaper other _ ((within other inChain).mono le)

end Chains

section Room

variable [DecidableEq Node] {targets : Finset Node} {values : Finset Cost}
  {label : Node → Option Cost} {node : Node} {cost : Cost}

/-- The values that the label of the node can still be lowered to. -/
def room (values : Finset Cost) (label : Node → Option Cost) (node : Node) : Finset Cost :=
  values.filter fun value => (label node).all fun old => decide (value < old)

/-- How often labels of the targets can be lowered. -/
def totalRoom (targets : Finset Node) (values : Finset Cost) (label : Node → Option Cost) : ℕ :=
  ∑ node ∈ targets, (room values label node).card

theorem totalRoom_le (targets : Finset Node) (values : Finset Cost) (label : Node → Option Cost) :
    totalRoom targets values label ≤ targets.card * values.card := by
  refine (Finset.sum_le_card_nsmul _ _ values.card fun node _ => ?_).trans_eq (Nat.nsmul_eq_mul _ _)
  exact Finset.card_le_card (Finset.filter_subset _ _)

theorem totalRoom_update (isTarget : node ∈ targets) (isValue : cost ∈ values)
    (lowers : ∀ old, label node = some old → cost < old) :
    totalRoom targets values (Function.update label node (some cost)) + 1 ≤
      totalRoom targets values label := by
  have own : room values (Function.update label node (some cost)) node ⊂ room values label node := by
    refine Finset.ssubset_iff_of_subset (fun value member => ?_) |>.mpr ⟨cost, ?_, ?_⟩
    · simp only [room, Finset.mem_filter, Function.update_self, Option.all_some,
        decide_eq_true_eq] at member ⊢
      refine ⟨member.1, ?_⟩
      cases labelled : label node with
      | none => rfl
      | some old => simpa using member.2.trans (lowers old labelled)
    · simp only [room, Finset.mem_filter]
      refine ⟨isValue, ?_⟩
      cases labelled : label node with
      | none => rfl
      | some old => simpa using lowers old labelled
    · simp [room]
  have others : ∀ other ∈ targets.erase node,
      (room values (Function.update label node (some cost)) other).card =
        (room values label other).card := by
    intro other member
    unfold room
    rw [Function.update_of_ne (Finset.ne_of_mem_erase member)]
  unfold totalRoom
  rw [← Finset.add_sum_erase _ _ isTarget, ← Finset.add_sum_erase _ _ isTarget,
    Finset.sum_congr rfl others]
  have smaller := Finset.card_lt_card own
  omega

end Room

end CutPlan.Lib
