import CutPlan.Lib.TableUpdates
import CutPlan.Search.NumericBound
import Mathlib.Logic.Relation

/-! # Soundness of the numeric bounds

The bounds hold in every run of the task, at every stage, if the strict preconditions keep their margins,
no effect is conditional or assigns another constant, changes reach the precision, and the slips of the
update of the action bounds are not reached.
-/

namespace CutPlan.Search

open CutPlan.Lib CutPlan.Sas

/-! ## Runs of the task -/

def BoundCondition.Holds (count : ℕ) (condition : BoundCondition) (numericVars : ℕ → ℚ) : Prop :=
  if condition.isStrictlyGreater then 0 < condition.eval (Finset.range count) numericVars
  else 0 ≤ condition.eval (Finset.range count) numericVars

namespace BoundAction

variable (count : ℕ) (action : BoundAction)

/-- The value of a variable after the action. -/
def newValue (values : ℕ → ℤ) (numericVars : ℕ → ℚ) (var : ℕ) : ℚ :=
  match (action.linearEffects.filter fun effect =>
      effect.lhs = var && Condition.allHold effect.conditions values).getLast? with
  | some effect =>
    (∑ other ∈ Finset.range count, effect.coefficients other * numericVars other) + effect.constant
  | none =>
    match (action.conditionalAssignList.filter fun effect =>
        effect.var = var && Condition.allHold effect.conditions values).getLast? with
    | some effect => effect.value
    | none =>
      if action.isAssignment var then action.assignList var
      else
        match (action.conditionalEffList.filter fun effect =>
            effect.var = var && Condition.allHold effect.conditions values).getLast? with
        | some effect => numericVars var + effect.value
        | none => numericVars var + action.effList var

/-- How many effects change the variable. -/
def effectCount (var : ℕ) : ℕ :=
  action.linearEffects.countP (fun effect => effect.lhs = var) +
    action.conditionalAssignList.countP (fun effect => effect.var = var) +
    action.conditionalEffList.countP (fun effect => effect.var = var) +
    if action.isAssignment var ∨ action.effList var ≠ 0 then 1 else 0

def Assigns (var : ℕ) : Prop :=
  action.isAssignment var = true ∨ ∃ effect ∈ action.conditionalAssignList, effect.var = var

end BoundAction

/-- A transition system whose numeric part is the task; its propositional part is arbitrary. -/
structure NumericRuns (task : BoundTask) (State : Type) where
  values : State → ℕ → ℤ
  numericVars : State → ℕ → ℚ
  initialState : State
  Step : State → ℕ → State → Prop
  op_lt : ∀ {state op successor}, Step state op successor → op < task.actionCount
  preconditions : ∀ {state op successor}, Step state op successor →
    ∀ condition ∈ (task.actions op).numList,
      condition.Holds task.numericVariableCount (numericVars state)
  effects : ∀ {state op successor}, Step state op successor → ∀ var < task.numericVariableCount,
    numericVars successor var =
      (task.actions op).newValue task.numericVariableCount (values state) (numericVars state) var

namespace NumericRuns

variable {task : BoundTask} {State : Type} (runs : NumericRuns task State)

def Reachable (state : State) : Prop :=
  Relation.ReflTransGen (fun before after => ∃ op, runs.Step before op after) runs.initialState state

/-- The bounds hold in all reachable states and along all their steps. -/
structure Sound (tables : BoundTables) : Prop where
  variableBounds : ∀ state, runs.Reachable state → ∀ var < task.numericVariableCount,
    (tables.variableBounds var).Bracket (runs.numericVars state var)
  beforeActionBounds : ∀ state op successor, runs.Reachable state → runs.Step state op successor →
    ∀ var < task.numericVariableCount,
      (tables.beforeActionBounds var op).Bracket (runs.numericVars state var)
  effectBounds : ∀ state op successor, runs.Reachable state → runs.Step state op successor →
    ∀ var < task.numericVariableCount, (tables.effectBounds op var).Bracket
      (runs.numericVars successor var - runs.numericVars state var)
  assignmentBounds : ∀ state op successor, runs.Reachable state → runs.Step state op successor →
    ∀ var < task.numericVariableCount,
      (tables.assignmentBounds op var).Bracket (runs.numericVars successor var)

/-! ## What the bounds rely on -/

/-- The coefficients and those of the condition are zero for the same variables. -/
def SameVariables (count : ℕ) (coefficients : ℕ → ℚ) (condition : BoundCondition) : Prop :=
  ∀ var < count, coefficients var = 0 ↔ condition.coefficients var = 0

def Proportional (count : ℕ) (coefficients : ℕ → ℚ) (condition : BoundCondition) : Prop :=
  ∃ factor, ∀ var < count, coefficients var = factor * condition.coefficients var

/-- Coefficients of the task reach the precision, and those of linear effects that mention the
variables of a precondition are multiples of it. -/
structure CoefficientsFit (task : BoundTask) : Prop where
  conditions : ∀ op < task.actionCount, ∀ condition ∈ (task.actions op).numList,
    ∀ var < task.numericVariableCount,
      Representable task.precision (condition.coefficients var)
  effects : ∀ op < task.actionCount, ∀ effect ∈ (task.actions op).linearEffects,
    ∀ var < task.numericVariableCount, Representable task.precision (effect.coefficients var) ∧
      Representable task.precision (BoundTask.incrementCoefficients effect var)
  own : ∀ op < task.actionCount, ∀ effect ∈ (task.actions op).linearEffects,
    effect.coefficients effect.lhs ≤ 1
  proportional : ∀ op < task.actionCount, ∀ effect ∈ (task.actions op).linearEffects,
    ∀ condition ∈ (task.actions op).numList,
    ∀ coefficients ∈ [effect.coefficients, BoundTask.incrementCoefficients effect],
      SameVariables task.numericVariableCount coefficients condition →
        Proportional task.numericVariableCount coefficients condition

structure Regular (runs : NumericRuns task State) : Prop where
  once : ∀ op < task.actionCount, ∀ var < task.numericVariableCount,
    (task.actions op).effectCount var ≤ 1
  coefficients : CoefficientsFit task
  /-- Conditional effects always take place. -/
  fires : ∀ state op successor, runs.Reachable state → runs.Step state op successor →
    (∀ effect ∈ (task.actions op).linearEffects,
      Condition.allHold effect.conditions (runs.values state) = true) ∧
    (∀ effect ∈ (task.actions op).conditionalAssignList,
      Condition.allHold effect.conditions (runs.values state) = true) ∧
    ∀ effect ∈ (task.actions op).conditionalEffList,
      Condition.allHold effect.conditions (runs.values state) = true
  /-- Constants are assigned only to variables that have the value already. -/
  assignments : ∀ state op successor, runs.Reachable state → runs.Step state op successor →
    ∀ var < task.numericVariableCount, (task.actions op).Assigns var →
      runs.numericVars successor var = runs.numericVars state var
  margins : ∀ state op successor, runs.Reachable state → runs.Step state op successor →
    ∀ condition ∈ (task.actions op).numList, condition.isStrictlyGreater = true →
      condition.epsilon ≤ condition.eval (Finset.range task.numericVariableCount)
        (runs.numericVars state)
  /-- No variable changes by less than the precision. -/
  changes : ∀ state op successor, runs.Reachable state → runs.Step state op successor →
    ∀ var < task.numericVariableCount,
      Representable task.precision (runs.numericVars successor var - runs.numericVars state var)

variable {runs}

theorem Regular.margin (regular : runs.Regular) {state successor : State} {op : ℕ}
    (reachable : runs.Reachable state) (step : runs.Step state op successor)
    {condition : BoundCondition} (member : condition ∈ (task.actions op).numList) :
    condition.epsilon ≤
      condition.eval (Finset.range task.numericVariableCount) (runs.numericVars state) := by
  cases strict : condition.isStrictlyGreater with
  | true => exact regular.margins state op successor reachable step condition member strict
  | false =>
    have holds := runs.preconditions step condition member
    rw [BoundCondition.Holds, strict] at holds
    rw [condition.epsilon_eq_zero strict]
    simpa using holds

/-! ## Values after an action -/

/-- The effects on a variable that take place are all those on it. -/
theorem filter_firing {Effect : Type*} {effects : List Effect} {isOwn fires : Effect → Bool}
    (allFire : ∀ effect ∈ effects, fires effect = true) :
    effects.filter (fun effect => isOwn effect && fires effect) = effects.filter isOwn :=
  List.filter_congr fun effect member => by rw [allFire effect member, Bool.and_true]

theorem newValue_of_fires {action : BoundAction} {values : ℕ → ℤ}
    (linear : ∀ effect ∈ action.linearEffects, Condition.allHold effect.conditions values = true)
    (assigned : ∀ effect ∈ action.conditionalAssignList,
      Condition.allHold effect.conditions values = true)
    (changed : ∀ effect ∈ action.conditionalEffList,
      Condition.allHold effect.conditions values = true)
    (count : ℕ) (numericVars : ℕ → ℚ) (var : ℕ) :
    action.newValue count values numericVars var =
      match (action.linearEffects.filter fun effect => effect.lhs = var).getLast? with
      | some effect =>
        (∑ other ∈ Finset.range count, effect.coefficients other * numericVars other) + effect.constant
      | none =>
        match (action.conditionalAssignList.filter fun effect => effect.var = var).getLast? with
        | some effect => effect.value
        | none =>
          if action.isAssignment var then action.assignList var
          else
            match (action.conditionalEffList.filter fun effect => effect.var = var).getLast? with
            | some effect => numericVars var + effect.value
            | none => numericVars var + action.effList var := by
  rw [BoundAction.newValue, filter_firing linear, filter_firing assigned, filter_firing changed]

section Step

variable {state successor : State} {op : ℕ}

theorem Regular.successor_value (regular : runs.Regular) (reachable : runs.Reachable state)
    (step : runs.Step state op successor) {var : ℕ} (within : var < task.numericVariableCount) :
    runs.numericVars successor var =
      match ((task.actions op).linearEffects.filter fun effect => effect.lhs = var).getLast? with
      | some effect =>
        (∑ other ∈ Finset.range task.numericVariableCount,
          effect.coefficients other * runs.numericVars state other) + effect.constant
      | none =>
        match ((task.actions op).conditionalAssignList.filter fun effect =>
            effect.var = var).getLast? with
        | some effect => effect.value
        | none =>
          if (task.actions op).isAssignment var then (task.actions op).assignList var
          else
            match ((task.actions op).conditionalEffList.filter fun effect =>
                effect.var = var).getLast? with
            | some effect => runs.numericVars state var + effect.value
            | none => runs.numericVars state var + (task.actions op).effList var := by
  obtain ⟨linear, assigned, changed⟩ := regular.fires state op successor reachable step
  rw [runs.effects step var within, newValue_of_fires linear assigned changed]

theorem Regular.linear_value (regular : runs.Regular) (reachable : runs.Reachable state)
    (step : runs.Step state op successor) {effect : LinearEffect}
    (member : effect ∈ (task.actions op).linearEffects) :
    runs.numericVars successor effect.lhs =
      (∑ other ∈ Finset.range task.numericVariableCount,
        effect.coefficients other * runs.numericVars state other) + effect.constant := by
  have within := task.lhs_lt op effect member
  have once := regular.once op (runs.op_lt step) effect.lhs within
  unfold BoundAction.effectCount at once
  have own : (task.actions op).linearEffects.filter
      (fun other => other.lhs = effect.lhs) = [effect] :=
    filter_eq_singleton member (by simp) (by omega)
  rw [regular.successor_value reachable step within, own]
  rfl

theorem prepareEffect_bracket (regular : runs.Regular) (reachable : runs.Reachable state)
    (step : runs.Step state op successor) {var : ℕ} (within : var < task.numericVariableCount) :
    (task.prepareEffect (task.actions op) var).Bracket
      (runs.numericVars successor var - runs.numericVars state var) := by
  have once := regular.once op (runs.op_lt step) var within
  unfold BoundAction.effectCount at once
  have assigns := regular.assignments state op successor reachable step var within
  have small := regular.changes state op successor reachable step var within
  have value := regular.successor_value reachable step within
  unfold BoundTask.prepareEffect
  simp only [foldl_update_apply]
  split
  · exact BoundPair.none_bracket _
  · rename_i noLinear
    rw [noLinear] at value
    split
    · rename_i effect isLast
      -- the only effect on the variable, so nothing assigns it
      have own := (countP_pos_of_getLast isLast).2.2
      have notAssigned : ¬ ((task.actions op).isAssignment var = true ∨
          (task.actions op).effList var ≠ 0) := by
        intro assigned
        rw [if_pos assigned] at once
        omega
      have noAssign : ((task.actions op).conditionalAssignList.filter fun effect =>
          effect.var = var).getLast? = none := by
        cases assign : ((task.actions op).conditionalAssignList.filter fun effect =>
            effect.var = var).getLast? with
        | none => rfl
        | some other =>
          have positive := (countP_pos_of_getLast assign).2.2
          omega
      rw [noAssign, if_neg fun assigned => notAssigned (.inl assigned), isLast] at value
      simp only at value
      rw [value, add_sub_cancel_left]
      exact BoundPair.exactly_bracket _
    · rename_i noChange
      by_cases assigned : (task.actions op).isAssignment var = true
      · rw [if_pos assigned, assigns (.inl assigned), sub_self]
        exact BoundPair.exactly_bracket 0
      · rw [if_neg assigned]
        cases assign : ((task.actions op).conditionalAssignList.filter fun effect =>
            effect.var = var).getLast? with
        | some other =>
          obtain ⟨member, own, positive⟩ := countP_pos_of_getLast assign
          have noEffect : (task.actions op).effList var = 0 := by
            by_contra nonzero
            rw [if_pos (.inr nonzero)] at once
            omega
          have notLarge : ¬ task.precision ≤ |(task.actions op).effList var| := by
            rw [noEffect, abs_zero, not_le]
            exact task.precision_pos
          rw [if_neg notLarge, assigns (.inr ⟨other, member, by simpa using own⟩), sub_self]
          exact BoundPair.exactly_bracket 0
        | none =>
          rw [assign, if_neg assigned, noChange] at value
          simp only at value
          rw [value, add_sub_cancel_left] at small ⊢
          split
          · exact BoundPair.exactly_bracket _
          · rename_i notLarge
            rw [small (not_le.mp notLarge)]
            exact BoundPair.exactly_bracket 0

theorem prepareAssignment_bracket (regular : runs.Regular) (reachable : runs.Reachable state)
    (step : runs.Step state op successor) {var : ℕ} (within : var < task.numericVariableCount) :
    (BoundTask.prepareAssignment (task.actions op) var).Bracket (runs.numericVars successor var) := by
  have value := regular.successor_value reachable step within
  unfold BoundTask.prepareAssignment
  simp only [foldl_update_apply]
  split
  · exact BoundPair.none_bracket _
  · rename_i noLinear
    rw [noLinear] at value
    split
    · rename_i effect isLast
      rw [isLast] at value
      simp only at value
      rw [value]
      exact BoundPair.exactly_bracket _
    · rename_i noAssign
      rw [noAssign] at value
      split
      · rename_i assigned
        rw [if_pos assigned] at value
        simp only at value
        rw [value]
        exact BoundPair.exactly_bracket _
      · exact BoundPair.none_bracket _

end Step

theorem prepare_sound (regular : runs.Regular) : runs.Sound task.prepare where
  variableBounds := fun _ _ _ _ => BoundPair.none_bracket _
  beforeActionBounds := fun _ _ _ _ _ _ _ => BoundPair.none_bracket _
  effectBounds := fun _ _ _ reachable step _ within => prepareEffect_bracket regular reachable step within
  assignmentBounds := fun _ _ _ reachable step _ within =>
    prepareAssignment_bracket regular reachable step within

end NumericRuns

end CutPlan.Search
