import CutPlan.Search.NumericSuccessor
import CutPlan.Search.Task

/-! # Operator costs and the metric

After reading the task `read_everything` replaces the cost of every operator by the change of the
metric that the operator makes in the initial state.
-/

namespace CutPlan.Search

open CutPlan.Sas

/-- A task with a metric.  `evaluate` stands for the comparison and logic axioms, which read the
numeric values and rewrite the others. -/
structure MetricTask extends NumericTask where
  metricFluent : ℕ
  initialStateData : ℕ → ℤ
  initialStateNumeric : ℕ → ℚ
  operators : List GlobalOperator
  evaluate : (ℕ → ℤ) → (ℕ → ℚ) → ℕ → ℤ
  goal : List Condition
  globalConstraint : Condition

def GlobalOperator.applyEffects (op : GlobalOperator) (values : ℕ → ℤ) : ℕ → ℤ :=
  op.effects.foldl
    (fun buffer effect =>
      if Condition.allHold effect.conditions values then
        Function.update buffer effect.var effect.val
      else buffer) values

namespace MetricTask

variable (task : MetricTask)

def evaluateMetric (numericVars : ℕ → ℚ) : ℚ :=
  numericVars task.metricFluent

def initialState : GlobalState :=
  let numericVars := task.evaluateArithmeticAxioms task.initialStateNumeric
  { values := task.evaluate task.initialStateData numericVars, numericVars }

def getSuccessorState (predecessor : GlobalState) (op : GlobalOperator) : GlobalState :=
  let numericVars := (task.getNumericSuccessor predecessor op).numericVars
  { values := task.evaluate (op.applyEffects predecessor.values) numericVars, numericVars }

def setCost (op : GlobalOperator) : GlobalOperator :=
  { op with
    cost := task.evaluateMetric (task.getNumericSuccessor task.initialState op).numericVars -
      task.evaluateMetric task.initialState.numericVars }

def operatorCosts : List ℚ :=
  task.operators.map fun op => (task.setCost op).cost

/-- The task that the search engines read. -/
def searchTask : Task GlobalState GlobalOperator where
  initialState := task.initialState
  operators := task.operators
  name := GlobalOperator.name
  isAxiom := fun _ => false
  cost := fun op => (task.setCost op).cost
  isUnitCost := task.operatorCosts.all fun cost => cost = 1
  isApplicable := fun op state => op.isApplicable state.values
  getSuccessorState := task.getSuccessorState
  testGoal := fun state => Condition.allHold task.goal state.values
  violatesGlobalConstraint := fun state => !Condition.allHold [task.globalConstraint] state.values
  operators_not_axiom := fun _ _ => rfl

/-- How much an operator changes the metric if it is applied in a state. -/
def metricChange (state : GlobalState) (op : GlobalOperator) : ℚ :=
  task.evaluateMetric (task.getSuccessorState state op).numericVars -
    task.evaluateMetric state.numericVars

/-- Wherever an operator can be applied it changes the metric as it would in the initial state. -/
def MetricChangesUniformly : Prop :=
  ∀ plan state, task.searchTask.Executes task.initialState plan state →
    ∀ op ∈ task.operators, op.isApplicable state.values = true →
      task.metricChange state op = task.metricChange task.initialState op

variable {task}

theorem cost_eq_metricChange (op : GlobalOperator) :
    task.searchTask.cost op = task.metricChange task.initialState op := rfl

theorem plan_cost_of_uniform (uniform : task.MetricChangesUniformly) {before after : GlobalState}
    {plan : List GlobalOperator} (executes : task.searchTask.Executes before plan after) :
    ∀ earlier, task.searchTask.Executes task.initialState earlier before →
      task.searchTask.calculatePlanCost plan =
        task.evaluateMetric after.numericVars - task.evaluateMetric before.numericVars := by
  induction executes with
  | nil state =>
    intro _ _
    simp
  | @cons state successor goal op plan transition rest inductionHypothesis =>
    intro earlier reached
    have tail := inductionHypothesis (earlier ++ [op]) (reached.snoc transition)
    have step := uniform earlier state reached op transition.member transition.applicable
    have stepsTo : task.getSuccessorState state op = successor := transition.reaches
    rw [Task.calculatePlanCost_cons, tail, cost_eq_metricChange, ← step, metricChange, stepsTo]
    ring

/-- The metric is a variable of its own that effects only raise or lower by constants. -/
structure ConstantCosts (task : MetricTask) : Prop where
  notDerived : task.numericVarTypes task.metricFluent = .instrumentation ∨
    task.numericVarTypes task.metricFluent = .regular
  constant : ∀ op ∈ task.operators, ∀ effect ∈ op.assignEffects,
    effect.affVar = task.metricFluent →
      (effect.fop = .increase ∨ effect.fop = .decrease) ∧
        task.numericVarTypes effect.assVar = .constant

/-- The value that an effect adds to the metric. -/
def addedCost (numericVars : ℕ → ℚ) (effect : AssignEffect) : ℚ :=
  if effect.affVar = task.metricFluent then effect.fop.assignEffect 0 (numericVars effect.assVar)
  else 0

theorem applyAssignEffect_constant {predecessor current : ℕ → ℚ} {var : ℕ}
    (isConstant : task.numericVarTypes var = .constant) (effect : AssignEffect) :
    task.applyAssignEffect predecessor current effect var = current var := by
  unfold NumericTask.applyAssignEffect
  cases type : task.numericVarTypes effect.affVar with
  | unknown | constant | derived => rfl
  | instrumentation | regular =>
    apply Function.update_of_ne
    rintro rfl
    simp [type] at isConstant

theorem getNumericSuccessor_constant {state : GlobalState} {op : GlobalOperator} {var : ℕ}
    (isConstant : task.numericVarTypes var = .constant) :
    (task.getNumericSuccessor state op).numericVars var = state.numericVars var := by
  show task.evaluateArithmeticAxioms _ var = _
  rw [NumericTask.evaluateArithmeticAxioms_of_not_derived (by simp [isConstant])]
  induction op.assignEffects using List.reverseRecOn with
  | nil => rfl
  | append_singleton effects effect inductionHypothesis =>
    rw [List.foldl_append, List.foldl_cons, List.foldl_nil, applyAssignEffect_constant isConstant,
      inductionHypothesis]

theorem executes_constant {before after : GlobalState} {plan : List GlobalOperator}
    (executes : task.searchTask.Executes before plan after) {var : ℕ}
    (isConstant : task.numericVarTypes var = .constant) :
    after.numericVars var = before.numericVars var := by
  induction executes with
  | nil state => rfl
  | @cons state successor goal op plan transition rest inductionHypothesis =>
    have stepsTo : task.getSuccessorState state op = successor := transition.reaches
    rw [inductionHypothesis, ← stepsTo]
    exact getNumericSuccessor_constant isConstant

theorem metric_applyAssignEffect
    (notDerived : task.numericVarTypes task.metricFluent = .instrumentation ∨
      task.numericVarTypes task.metricFluent = .regular)
    {predecessor current : ℕ → ℚ} {effect : AssignEffect}
    (constant : effect.affVar = task.metricFluent →
      (effect.fop = .increase ∨ effect.fop = .decrease) ∧
        task.numericVarTypes effect.assVar = .constant) :
    task.applyAssignEffect predecessor current effect task.metricFluent =
      current task.metricFluent + task.addedCost current effect := by
  by_cases own : effect.affVar = task.metricFluent
  · obtain ⟨changes, isConstant⟩ := constant own
    have assigned : task.assignedValue predecessor current effect = current effect.assVar := by
      simp [NumericTask.assignedValue, isConstant]
    have added : effect.fop.assignEffect (current task.metricFluent) (current effect.assVar) =
        current task.metricFluent + task.addedCost current effect := by
      cases changes with
      | inl increases => simp [addedCost, own, increases, FOperator.assignEffect]
      | inr decreases => simp [addedCost, own, decreases, FOperator.assignEffect, sub_eq_add_neg]
    unfold NumericTask.applyAssignEffect
    rw [assigned, own, ← added]
    cases notDerived with
    | inl type => simp [type]
    | inr type => simp [type]
  · unfold NumericTask.applyAssignEffect
    cases task.numericVarTypes effect.affVar with
    | instrumentation | regular => simp [addedCost, own, Ne.symm own]
    | unknown | constant | derived => simp [addedCost, own]

theorem metricChange_of_constantCosts (costs : task.ConstantCosts) {op : GlobalOperator}
    (member : op ∈ task.operators) (state : GlobalState) :
    task.metricChange state op = (op.assignEffects.map (task.addedCost state.numericVars)).sum := by
  have notDerived : task.numericVarTypes task.metricFluent ≠ .derived := by
    cases costs.notDerived with
    | inl type => simp [type]
    | inr type => simp [type]
  have fold : ∀ (effects : List AssignEffect) (current : ℕ → ℚ),
      (∀ effect ∈ effects, effect ∈ op.assignEffects) →
      (∀ var, task.numericVarTypes var = .constant → current var = state.numericVars var) →
      effects.foldl (task.applyAssignEffect state.numericVars) current task.metricFluent =
        current task.metricFluent + (effects.map (task.addedCost state.numericVars)).sum := by
    intro effects
    induction effects with
    | nil =>
      intro current _ _
      simp
    | cons effect effects inductionHypothesis =>
      intro current members sameConstants
      rw [List.forall_mem_cons] at members
      have constant := costs.constant op member effect members.1
      have sameCost : task.addedCost current effect =
          task.addedCost state.numericVars effect := by
        unfold addedCost
        split
        case isTrue own => rw [sameConstants _ (constant own).2]
        case isFalse => rfl
      rw [List.foldl_cons, inductionHypothesis _ members.2, List.map_cons, List.sum_cons,
        metric_applyAssignEffect costs.notDerived constant, sameCost]
      · ring
      · intro var isConstant
        rw [applyAssignEffect_constant isConstant, sameConstants var isConstant]
  unfold metricChange evaluateMetric getSuccessorState NumericTask.getNumericSuccessor
  simp only [NumericTask.evaluateArithmeticAxioms_of_not_derived notDerived]
  rw [fold op.assignEffects _ (fun _ => id) (fun _ _ => rfl)]
  ring

/-- Constant costs are the same in every state. -/
theorem uniform_of_constantCosts (costs : task.ConstantCosts) : task.MetricChangesUniformly := by
  intro plan state reached op member _
  rw [metricChange_of_constantCosts costs member, metricChange_of_constantCosts costs member]
  congr 1
  apply List.map_congr_left
  intro effect isEffect
  unfold addedCost
  split
  case isTrue own =>
    rw [executes_constant reached (costs.constant op member effect isEffect own).2]
  case isFalse => rfl

end MetricTask

/-! ## A cost that depends on the state -/

/-- Numeric variable 0 is the metric, 1 the length of the route and 2 the constant 4.  `drive` adds the
length to the metric and `detour` lengthens the route. -/
def routeTask : MetricTask where
  numericVarTypes := fun var =>
    if var = 0 then .instrumentation else if var = 1 then .regular else .constant
  assAxioms := []
  assAxioms_derived := by simp
  metricFluent := 0
  initialStateData := fun _ => 0
  initialStateNumeric := fun var => if var = 0 then 0 else if var = 1 then 1 else 4
  operators := [drive, detour]
  evaluate := fun values _ => values
  goal := [{ var := 0, val := 1 }]
  globalConstraint := { var := 1, val := 0 }
where
  drive : GlobalOperator := {
    preconditions := []
    effects := [{ var := 0, val := 1, conditions := [] }]
    assignEffects := [.make [] 0 .increase 1]
    name := "drive"
    cost := 1 }
  detour : GlobalOperator := {
    preconditions := []
    effects := []
    assignEffects := [.make [] 1 .increase 2]
    name := "detour"
    cost := 1 }

/-- `haul` adds the constant 4 to the metric. -/
def haulTask : MetricTask := { routeTask with operators := [haul] }
where
  haul : GlobalOperator := {
    preconditions := []
    effects := [{ var := 0, val := 1, conditions := [] }]
    assignEffects := [.make [] 0 .increase 2]
    name := "haul"
    cost := 1 }

end CutPlan.Search
