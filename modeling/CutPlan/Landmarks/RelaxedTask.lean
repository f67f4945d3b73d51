import CutPlan.Lib.CheapestDerivation
import CutPlan.Lib.PriorityQueue
import Mathlib.Algebra.BigOperators.Fin
import Mathlib.Algebra.Order.Field.Rat
import Mathlib.Data.Finset.Card
import Mathlib.Tactic

/-! # The relaxed task of the numeric LM-cut landmarks

What the explorations of `LandmarkCutLandmarks` read: the relaxed operators, the facts and conditions
of the state, and how often an operator has to be applied to reach a condition.  No relaxed operator
is second-order simple here, so the first of the two original operators and its cost are left out.
-/

namespace CutPlan.Landmarks

open CutPlan.Lib

inductive RelaxedProposition where
  | artificialPrecondition
  | artificialGoal
  | fact (var : ℕ) (value : ℤ)
  | condition (id : ℕ)
  deriving DecidableEq, Repr

structure RelaxedOperator where
  /-- `original_op_id_2`; `none` stands for the invalid id of the artificial goal operator. -/
  originalOpId : Option ℕ
  preconditions : List RelaxedProposition
  effects : List RelaxedProposition
  infinite : Bool

structure LandmarkOptions where
  ceilingLessThanOne : Bool
  useRandomPcf : Bool
  useIrmax : Bool
  disableMa : Bool
  precision : ℚ
  precision_nonneg : 0 ≤ precision

/-- The relaxed task in a state. -/
structure RelaxedTask where
  options : LandmarkOptions
  relaxedOperators : List RelaxedOperator
  opBaseCost : ℕ → ℚ
  opBaseCost_nonneg : ∀ opId, 0 ≤ opBaseCost opId
  goal_effects : ∀ op ∈ relaxedOperators, op.originalOpId = none → op.effects = [.artificialGoal]
  /-- The facts of the state, without those of comparison axioms. -/
  stateFacts : List RelaxedProposition
  conditionCount : ℕ
  /-- How much each condition lacks in the state. -/
  numericInitialState : ℕ → ℚ
  /-- By how much an original operator increases the left-hand side of a condition in the state. -/
  netEffect : ℕ → ℕ → ℚ

/-- The parts of the program that the explorations use: the priority queue and the random numbers. -/
structure Environment where
  queue : HeapQueue ℚ RelaxedProposition
  rng : ℕ → ℕ → ℕ
  rng_lt : ∀ draw bound, 0 < bound → rng draw bound < bound

namespace RelaxedTask

variable (task : RelaxedTask)

abbrev Op : Type := Fin task.relaxedOperators.length

instance : LawfulBEq task.Op := inferInstance

abbrev op (index : task.Op) : RelaxedOperator := task.relaxedOperators.get index

/-- The operators that `precondition_of` lists, once for each occurrence of the precondition. -/
def preconditionOf (prop : RelaxedProposition) : List task.Op :=
  (List.finRange task.relaxedOperators.length).flatMap fun index =>
    ((task.op index).preconditions.filter (· = prop)).map fun _ => index

def effectOf (prop : RelaxedProposition) : List task.Op :=
  (List.finRange task.relaxedOperators.length).flatMap fun index =>
    ((task.op index).effects.filter (· = prop)).map fun _ => index

/-- `base_cost_2`; the artificial goal operator is free. -/
def baseCost (index : task.Op) : ℚ :=
  (task.op index).originalOpId.elim 0 task.opBaseCost

def netOf (index : task.Op) (id : ℕ) : ℚ :=
  (task.op index).originalOpId.elim 0 fun opId => task.netEffect opId id

/-- The second component of `calculate_numeric_times`: how often the operator is applied for the
effect. -/
def calculateNumericTimes (useMa : Bool) (effect : RelaxedProposition) (index : task.Op) : ℚ :=
  match effect with
  | .condition id =>
    if useMa && !(task.op index).infinite then
      let net := task.netOf index id
      -- no effect
      if net < task.options.precision then -1
      else
        let m := task.numericInitialState id / net
        -- already satisfied
        if m < task.options.precision then 0
        else if task.options.ceilingLessThanOne then max m 1
        else m
    else 1
  | _ => 1

/-- The conditions that the state satisfies. -/
def stateConditions : List RelaxedProposition :=
  ((List.range task.conditionCount).filter fun id =>
    task.numericInitialState id < task.options.precision).map .condition

/-- What the first exploration starts from. -/
def initialPropositions : List RelaxedProposition :=
  task.stateFacts ++ task.stateConditions ++ [.artificialPrecondition]

variable {task}

theorem baseCost_nonneg (index : task.Op) : 0 ≤ task.baseCost index := by
  unfold baseCost
  cases (task.op index).originalOpId with
  | none => exact le_refl 0
  | some opId => exact task.opBaseCost_nonneg opId

@[simp] theorem mem_preconditionOf {prop : RelaxedProposition} {index : task.Op} :
    index ∈ task.preconditionOf prop ↔ prop ∈ (task.op index).preconditions := by
  simp only [preconditionOf, List.mem_flatMap, List.mem_finRange, true_and, List.mem_map,
    List.mem_filter, decide_eq_true_eq]
  constructor
  · rintro ⟨other, premise, ⟨member, rfl⟩, rfl⟩
    exact member
  · intro member
    exact ⟨index, prop, ⟨member, rfl⟩, rfl⟩

theorem artificialPrecondition_mem : .artificialPrecondition ∈ task.initialPropositions := by
  simp [initialPropositions]

theorem count_preconditionOf (prop : RelaxedProposition) (index : task.Op) :
    (task.preconditionOf prop).count index = (task.op index).preconditions.count prop := by
  have count : ∀ indices : List task.Op, indices.Nodup →
      (indices.flatMap fun other =>
        ((task.op other).preconditions.filter (· = prop)).map fun _ => other).count index =
        if index ∈ indices then (task.op index).preconditions.count prop else 0 := by
    intro indices
    induction indices with
    | nil => simp
    | cons other indices inductionHypothesis =>
      intro distinct
      rw [List.nodup_cons] at distinct
      rw [List.flatMap_cons, List.count_append, inductionHypothesis distinct.2]
      by_cases same : other = index
      · subst same
        rw [if_neg distinct.1, if_pos List.mem_cons_self, add_zero, List.map_const',
          List.count_replicate_self, List.count, List.countP_eq_length_filter]
        congr 2
      · rw [List.count_eq_zero.mpr, zero_add]
        · simp [Ne.symm same]
        · intro member
          obtain ⟨_, _, isOther⟩ := List.mem_map.mp member
          exact same isOther
  rw [preconditionOf, count _ (List.nodup_finRange _), if_pos (List.mem_finRange _)]

@[simp] theorem mem_effectOf {prop : RelaxedProposition} {index : task.Op} :
    index ∈ task.effectOf prop ↔ prop ∈ (task.op index).effects := by
  simp only [effectOf, List.mem_flatMap, List.mem_finRange, true_and, List.mem_map,
    List.mem_filter, decide_eq_true_eq]
  constructor
  · rintro ⟨other, effect, ⟨member, rfl⟩, rfl⟩
    exact member
  · intro member
    exact ⟨index, prop, ⟨member, rfl⟩, rfl⟩

end RelaxedTask

end CutPlan.Landmarks
