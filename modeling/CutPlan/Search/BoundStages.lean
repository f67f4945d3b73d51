import CutPlan.Search.BoundUpdates

/-! # The bounds at every stage

The result for all stages of the loop, and what goes wrong when constants are assigned, when a variable
is multiplied and when a precondition mentions the variables of an effect with other weights.
-/

namespace CutPlan.Search

open CutPlan.Lib CutPlan.Sas

namespace BoundTask

variable {task : BoundTask} {state : ℕ → ℚ}

theorem Stage.runIterations (iterations : ℕ) {tables : BoundTables} (stage : task.Stage state tables) :
    task.Stage state (task.runIterations state iterations tables) := by
  induction iterations generalizing tables with
  | zero => exact stage
  | succ iterations inductionHypothesis =>
    unfold BoundTask.runIterations
    simp only
    split
    · exact inductionHypothesis stage.variableBounds
    · split
      · exact inductionHypothesis stage.variableBounds.actionBounds
      · split
        · exact inductionHypothesis stage.variableBounds.actionBounds.beforeActionBounds
        · exact stage.variableBounds.actionBounds.beforeActionBounds

theorem calculateBounds_stage (iterations : ℕ) :
    task.Stage state (task.calculateBounds state iterations) :=
  Stage.runIterations iterations (.beforeActionBounds .prepare)

end BoundTask

namespace NumericRuns

variable {task : BoundTask} {State : Type} {runs : NumericRuns task State}

/-- All tables up to the result of any number of iterations hold in all runs. -/
theorem bounds_sound (regular : runs.Regular) :
    (∀ tables, task.Stage (runs.numericVars runs.initialState) tables → runs.Sound tables) ∧
      ∀ iterations, runs.Sound
        (task.calculateBounds (runs.numericVars runs.initialState) iterations) := by
  have stage_sound : ∀ tables, task.Stage (runs.numericVars runs.initialState) tables →
      runs.Sound tables := by
    intro tables stage
    induction stage with
    | prepare => exact prepare_sound regular
    | beforeActionBounds _ inductionHypothesis =>
      exact updateBeforeActionBounds_sound regular inductionHypothesis
    | variableBounds _ inductionHypothesis =>
      exact updateVariableBounds_sound regular inductionHypothesis
    | actionBounds _ inductionHypothesis =>
      exact updateActionBounds_sound regular inductionHypothesis
  exact ⟨stage_sound, fun iterations => stage_sound _ (BoundTask.calculateBounds_stage iterations)⟩

/-- The runs of a task whose actions have numeric preconditions only. -/
def numericOnly (task : BoundTask) (start : ℕ → ℚ) : NumericRuns task (ℕ → ℚ) where
  values := fun _ _ => 0
  numericVars := id
  initialState := start
  Step := fun state op successor => op < task.actionCount ∧
    (∀ condition ∈ (task.actions op).numList, condition.Holds task.numericVariableCount state) ∧
    successor = (task.actions op).newValue task.numericVariableCount (fun _ => 0) state
  op_lt := And.left
  preconditions := fun step => step.2.1
  effects := fun step var _ => congrFun step.2.2 var

end NumericRuns

/-! ## Small tasks -/

theorem millionth_pos : (0 : ℚ) < 1 / 1000000 := by norm_num

/-- A task with one action and three variables. -/
def singleAction (numList : List BoundCondition) (assignTo : Option ℚ)
    (linearEffects : List LinearEffect) (within : ∀ effect ∈ linearEffects, effect.lhs < 3) :
    BoundTask where
  numericVariableCount := 3
  actionCount := 1
  actions := fun _ =>
    { Action.empty 1 with
      isAssignment := fun var => var = 0 && assignTo.isSome
      assignList := fun _ => assignTo.getD 0
      linearEffects := linearEffects
      numList := numList }
  precision := 1 / 1000000
  precision_pos := millionth_pos
  lhs_lt := fun _ => within

def nonnegative (coefficients : ℕ → ℚ) (constant : ℚ) : BoundCondition where
  coefficients := coefficients
  constant := constant
  isStrictlyGreater := false
  epsilon := 0
  epsilon_eq_zero := fun _ => rfl

def linear (lhs : ℕ) (coefficients : ℕ → ℚ) : LinearEffect where
  lhs := lhs
  coefficients := coefficients
  constant := 0
  conditions := []

def weights (first second third : ℚ) (var : ℕ) : ℚ :=
  if var = 0 then first else if var = 1 then second else if var = 2 then third else 0

/-- Adds the first variable, which is at least 1, to the second. -/
def fillTask : BoundTask :=
  singleAction [nonnegative (weights 1 0 0) (-1)] none [linear 1 (weights 1 1 0)] (by simp [linear])

/-- Assigns 10 to the first variable. -/
def resetTask : BoundTask := singleAction [] (some 10) [] (by simp)

/-- Doubles the first variable while it is at most 5. -/
def doubleTask : BoundTask :=
  singleAction [nonnegative (weights (-1) 0 0) 5] none [linear 0 (weights 2 0 0)] (by simp [linear])

/-- Assigns the sum of the first two variables to the third if the first is at least twice the second. -/
def sumTask : BoundTask :=
  singleAction [nonnegative (weights 1 (-2) 0) 0] none [linear 2 (weights 1 1 0)] (by simp [linear])

theorem fillTask_coefficientsFit : NumericRuns.CoefficientsFit fillTask := by
  have member {effect : LinearEffect} {op : ℕ} (isEffect : effect ∈ (fillTask.actions op).linearEffects) :
      effect = linear 1 (weights 1 1 0) := List.mem_singleton.mp isEffect
  have memberCondition {condition : BoundCondition} {op : ℕ}
      (isCondition : condition ∈ (fillTask.actions op).numList) :
      condition = nonnegative (weights 1 0 0) (-1) := List.mem_singleton.mp isCondition
  constructor
  · intro op _ condition isCondition
    rw [memberCondition isCondition]
    show ∀ var < 3, Representable (1 / 1000000) (weights 1 0 0 var)
    decide +kernel
  · intro op _ effect isEffect
    rw [member isEffect]
    show ∀ var < 3, Representable (1 / 1000000) (weights 1 1 0 var) ∧ Representable (1 / 1000000)
      (BoundTask.incrementCoefficients (linear 1 (weights 1 1 0)) var)
    decide +kernel
  · intro op _ effect isEffect
    rw [member isEffect]
    decide +kernel
  · intro op _ effect isEffect condition isCondition coefficients isCoefficients same
    rw [memberCondition isCondition] at same ⊢
    rw [member isEffect, List.mem_pair] at isCoefficients
    obtain rfl | rfl := isCoefficients
    · have second := (same 1 (by decide)).mpr (by decide +kernel)
      exact absurd second (by decide +kernel)
    · refine ⟨1, ?_⟩
      show ∀ var < 3, BoundTask.incrementCoefficients (linear 1 (weights 1 1 0)) var =
        1 * weights 1 0 0 var
      decide +kernel

theorem fillTask_regular (start : ℕ → ℚ) : (NumericRuns.numericOnly fillTask start).Regular where
  once := by
    show ∀ op < 1, ∀ var < 3, (fillTask.actions op).effectCount var ≤ 1
    decide +kernel
  coefficients := fillTask_coefficientsFit
  fires := by
    intro state op successor _ _
    simp [fillTask, singleAction, Action.empty, linear, Condition.allHold]
  assignments := by
    intro state op successor _ _ var _ assigns
    simp [BoundAction.Assigns, fillTask, singleAction, Action.empty] at assigns
  margins := by
    intro state op successor _ _ condition isCondition strict
    rw [List.mem_singleton.mp isCondition] at strict
    cases strict
  changes := by
    intro state op successor _ step var within small
    obtain ⟨_, holds, rfl⟩ := step
    have holds := holds _ (List.mem_singleton_self _)
    simp [BoundCondition.Holds, LinearNumericCondition.eval, nonnegative, fillTask, singleAction,
      weights] at holds
    by_cases isSecond : var = 1
    · -- the second variable grows by the first, which is at least 1
      subst isSecond
      simp [NumericRuns.numericOnly, BoundAction.newValue, fillTask, singleAction, Action.empty,
        linear, Condition.allHold, weights, Finset.sum_range_succ] at small
      rw [abs_of_nonneg (by linarith)] at small
      norm_num at small
      linarith
    · simp [NumericRuns.numericOnly, BoundAction.newValue, fillTask, singleAction, Action.empty,
        linear, Ne.symm isSecond]

theorem fillTask_bounds :
    (NumericRuns.numericOnly fillTask (weights 3 0 0)).Sound
      (fillTask.calculateBounds (weights 3 0 0) 3) :=
  (NumericRuns.bounds_sound (fillTask_regular (weights 3 0 0))).2 3

/-- One step leads above the upper bound that is calculated. -/
theorem not_sound_of_step {task : BoundTask} {start : ℕ → ℚ} {tables : BoundTables}
    (isAction : 0 < task.actionCount)
    (holds : ∀ condition ∈ (task.actions 0).numList, condition.Holds task.numericVariableCount start)
    {var : ℕ} (within : var < task.numericVariableCount) {bound : ℚ}
    (isBound : tables.variableBounds var .upper = some bound)
    (exceeds : bound <
      (task.actions 0).newValue task.numericVariableCount (fun _ => 0) start var) :
    ¬ (NumericRuns.numericOnly task start).Sound tables := by
  intro sound
  have reachable : (NumericRuns.numericOnly task start).Reachable
      ((task.actions 0).newValue task.numericVariableCount (fun _ => 0) start) :=
    .single ⟨0, isAction, holds, rfl⟩
  exact absurd (sound.variableBounds _ reachable var within .upper bound isBound) (not_le.mpr exceeds)

theorem small_tasks_not_sound :
    ¬ (NumericRuns.numericOnly resetTask (weights 0 0 0)).Sound
        (resetTask.calculateBounds (weights 0 0 0) 1) ∧
      ¬ (NumericRuns.numericOnly doubleTask (weights 5 0 0)).Sound
        (doubleTask.calculateBounds (weights 5 0 0) 3) ∧
      ¬ (NumericRuns.numericOnly sumTask (weights 2 1 0)).Sound
        (sumTask.calculateBounds (weights 2 1 0) 3) := by
  refine ⟨?_, ?_, ?_⟩
  · have noCondition : ∀ condition ∈ (resetTask.actions 0).numList,
        condition.Holds resetTask.numericVariableCount (weights 0 0 0) := by
      intro condition isCondition
      cases isCondition
    have isBound : (resetTask.calculateBounds (weights 0 0 0) 1).variableBounds 0 .upper = some 0 := by
      decide +kernel
    exact not_sound_of_step (by decide) noCondition (by decide) isBound (by decide +kernel)
  · have holds : ∀ condition ∈ (doubleTask.actions 0).numList,
        condition.Holds doubleTask.numericVariableCount (weights 5 0 0) := by
      intro condition isCondition
      rw [List.mem_singleton.mp isCondition]
      show 0 ≤ LinearNumericCondition.eval _ _ _
      decide +kernel
    have isBound : (doubleTask.calculateBounds (weights 5 0 0) 3).variableBounds 0 .upper = some 6 := by
      decide +kernel
    exact not_sound_of_step (by decide) holds (by decide) isBound (by decide +kernel)
  · have holds : ∀ condition ∈ (sumTask.actions 0).numList,
        condition.Holds sumTask.numericVariableCount (weights 2 1 0) := by
      intro condition isCondition
      rw [List.mem_singleton.mp isCondition]
      show 0 ≤ LinearNumericCondition.eval _ _ _
      decide +kernel
    have isBound : (sumTask.calculateBounds (weights 2 1 0) 3).variableBounds 2 .upper = some 0 := by
      decide +kernel
    exact not_sound_of_step (by decide) holds (by decide) isBound (by decide +kernel)

end CutPlan.Search
