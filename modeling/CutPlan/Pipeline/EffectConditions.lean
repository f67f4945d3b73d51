import CutPlan.Pipeline.NumericEffects

/-! # The conditions of numeric effects

A successor respects the conditions of the numeric effects if the loop over the assign effects applies
exactly those whose translated conditions hold in the predecessor.
-/

namespace CutPlan.Pipeline

open CutPlan.Lib CutPlan.Sas CutPlan.Translate CutPlan.Preprocess CutPlan.Search

/-- What an effect does when it is applied, whatever its conditions are. -/
def change (effect : AssignEffect) : ℕ × FOperator × ℕ :=
  (effect.affVar, effect.fop, effect.assVar)

variable (task : NumericTask) (levels : Levels) (context : OperatorContext)

/-- The translated conditions of the effect hold in the state. -/
def conditionsHold (state : GlobalState) (effect : SasAssignEffect) : Bool :=
  Condition.allHold (effect.cond.map (searchCondition levels)) state.values

def firingEffects (op : SasOperator) (state : GlobalState) : List SasAssignEffect :=
  (keptEffects levels op).filter (conditionsHold levels state)

/-- The value of a variable after the effects on it, with all right-hand sides taken from the
predecessor. -/
def simultaneousValue (effects : List SasAssignEffect) (state : GlobalState) (var : ℕ) : ℚ :=
  (effects.filter fun effect => (levels.numeric effect.nvar).toNat = var).foldl
    (fun value effect =>
      effect.op.assignEffect value (state.numericVars (levels.numeric effect.assVar).toNat))
    (state.numericVars var)

structure RespectsConditions (op : SasOperator) (state : GlobalState)
    (successor : NumericTask.NumericSuccessor) : Prop where
  applied : successor.applied.map change =
    (firingEffects levels op state).map fun effect => change (searchedEffect levels effect)
  values : ∀ var,
    task.numericVarTypes var = .regular ∨ task.numericVarTypes var = .instrumentation →
    (∀ effect ∈ firingEffects levels op state, (levels.numeric effect.nvar).toNat = var →
      task.numericVarTypes (levels.numeric effect.assVar).toNat = .regular) →
    successor.numericVars var = simultaneousValue levels (firingEffects levels op state) state var

variable {task levels context}

theorem firingEffects_eq_kept_iff {op : SasOperator} {state : GlobalState} :
    firingEffects levels op state = keptEffects levels op ↔
      ∀ effect ∈ keptEffects levels op, conditionsHold levels state effect = true :=
  List.filter_eq_self

/-- The loop changes each variable by the kept effects on it. -/
theorem numericVars_searchedOperator {op : SasOperator} {state : GlobalState} {var : ℕ}
    (changes : task.numericVarTypes var = .regular ∨ task.numericVarTypes var = .instrumentation)
    (regular : ∀ effect ∈ keptEffects levels op, (levels.numeric effect.nvar).toNat = var →
      task.numericVarTypes (levels.numeric effect.assVar).toNat = .regular) :
    (task.getNumericSuccessor state (searchedOperator levels context op)).numericVars var =
      simultaneousValue levels (keptEffects levels op) state var := by
  have notDerived : task.numericVarTypes var ≠ .derived := by
    rcases changes with type | type
    · simp [type]
    · simp [type]
  have sameEffects : (searchedOperator levels context op).assignEffects =
      (keptEffects levels op).map (searchedEffect levels) := rfl
  simp only [NumericTask.getNumericSuccessor, sameEffects]
  rw [NumericTask.evaluateArithmeticAxioms_of_not_derived notDerived,
    NumericTask.foldl_applyAssignEffect changes]
  · rw [List.filter_map, List.foldl_map]
    rfl
  · intro effect member own
    obtain ⟨kept, isKept, rfl⟩ := List.mem_map.mp member
    exact regular kept isKept own

section ConditionalIncrease

/-- Increases the numeric variable 0 by the constant 1 if variable 0 has the value 0. -/
def conditionalIncrease : SasOperator where
  name := "increase"
  prevail := []
  prePost := []
  assignEffects := [{ nvar := 0, op := .increase, assVar := 1, cond := [{ var := 0, val := 0 }] }]
  cost := 1

def counterTask : NumericTask where
  numericVarTypes := fun var => if var = 0 then .regular else .constant
  assAxioms := []
  assAxioms_derived := by simp

def sameLevels : Levels where
  propositional := fun var => var
  numeric := fun var => var

def binaryContext : OperatorContext where
  variableDomain := [2]
  useMetric := false

/-- Variable 0 has the given value, the counter is 0. -/
def counterState (val : ℤ) : GlobalState where
  values := fun _ => val
  numericVars := fun var => if var = 0 then 0 else 1

theorem conditionalIncrease_kept : OperatorKept sameLevels binaryContext conditionalIncrease where
  prevail := by simp [conditionalIncrease]
  prePost := by simp [conditionalIncrease]
  assignEffects := by
    intro effect member _
    obtain rfl := List.mem_singleton.mp member
    refine ⟨by decide, by decide, fun condition isCondition => ?_⟩
    obtain rfl := List.mem_singleton.mp isCondition
    exact ⟨by decide, by decide⟩

end ConditionalIncrease

end CutPlan.Pipeline
