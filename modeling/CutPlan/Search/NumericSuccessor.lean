import CutPlan.Search.GlobalOperator
import Mathlib.Tactic

/-! # Numeric successors

How `StateRegistry::get_successor_state` computes the values of a successor: the loop over the assign
effects of an operator and the arithmetic axioms after it.
-/

namespace CutPlan.Search

open CutPlan.Sas

structure AssignmentAxiom where
  affectedVariable : ℕ
  op : CalOperator
  varLhs : ℕ
  varRhs : ℕ
  deriving DecidableEq, Repr

/-- The arithmetic axioms in the order of their evaluation and the types of the numeric variables. -/
structure NumericTask where
  numericVarTypes : ℕ → NumType
  assAxioms : List AssignmentAxiom
  assAxioms_derived : ∀ assAxiom ∈ assAxioms, numericVarTypes assAxiom.affectedVariable = .derived

/-- The values of a state, with those of the derived variables evaluated. -/
structure GlobalState where
  values : ℕ → ℤ
  numericVars : ℕ → ℚ

def AssignmentAxiom.evaluate (numericState : ℕ → ℚ) (assAxiom : AssignmentAxiom) : ℕ → ℚ :=
  Function.update numericState assAxiom.affectedVariable
    (assAxiom.op.eval (numericState assAxiom.varLhs) (numericState assAxiom.varRhs))

namespace NumericTask

variable (task : NumericTask)

def evaluateArithmeticAxioms (numericState : ℕ → ℚ) : ℕ → ℚ :=
  task.assAxioms.foldl AssignmentAxiom.evaluate numericState

/-- The right-hand side of an effect: regular variables are read in the predecessor, all others in the
values computed so far. -/
def assignedValue (predecessor current : ℕ → ℚ) (effect : AssignEffect) : ℚ :=
  if task.numericVarTypes effect.assVar = .regular then predecessor effect.assVar
  else current effect.assVar

/-- One iteration of the loop; variables that are neither instrumentation nor regular are not
written. -/
def applyAssignEffect (predecessor current : ℕ → ℚ) (effect : AssignEffect) : ℕ → ℚ :=
  let result :=
    effect.fop.assignEffect (current effect.affVar) (task.assignedValue predecessor current effect)
  match task.numericVarTypes effect.affVar with
  | .instrumentation | .regular => Function.update current effect.affVar result
  | _ => current

/-- The outcome of `get_numeric_successor`, with the effects that the loop has applied. -/
structure NumericSuccessor where
  numericVars : ℕ → ℚ
  applied : List AssignEffect

/-- The loop does not consult the conditions of the effects. -/
def getNumericSuccessor (predecessor : GlobalState) (op : GlobalOperator) : NumericSuccessor where
  numericVars := task.evaluateArithmeticAxioms <|
    op.assignEffects.foldl (task.applyAssignEffect predecessor.numericVars) predecessor.numericVars
  applied := op.assignEffects

variable {task}

/-! ## Values of single variables -/

theorem evaluateArithmeticAxioms_of_not_derived {numericState : ℕ → ℚ} {var : ℕ}
    (notDerived : task.numericVarTypes var ≠ .derived) :
    task.evaluateArithmeticAxioms numericState var = numericState var := by
  unfold evaluateArithmeticAxioms
  have derived := task.assAxioms_derived
  generalize task.assAxioms = assAxioms at derived
  induction assAxioms generalizing numericState with
  | nil => rfl
  | cons assAxiom rest inductionHypothesis =>
    rw [List.forall_mem_cons] at derived
    rw [List.foldl_cons, inductionHypothesis derived.2, AssignmentAxiom.evaluate,
      Function.update_of_ne]
    rintro rfl
    exact notDerived derived.1

/-- Effects with regular right-hand sides act simultaneously: each variable is changed by its own
effects only, with the right-hand sides of the predecessor. -/
theorem foldl_applyAssignEffect {predecessor current : ℕ → ℚ} {var : ℕ}
    (changes : task.numericVarTypes var = .regular ∨ task.numericVarTypes var = .instrumentation)
    (effects : List AssignEffect)
    (regular : ∀ effect ∈ effects, effect.affVar = var →
      task.numericVarTypes effect.assVar = .regular) :
    effects.foldl (task.applyAssignEffect predecessor) current var =
      (effects.filter fun effect => effect.affVar = var).foldl
        (fun value effect => effect.fop.assignEffect value (predecessor effect.assVar))
        (current var) := by
  induction effects generalizing current with
  | nil => rfl
  | cons effect effects inductionHypothesis =>
    rw [List.forall_mem_cons] at regular
    rw [List.foldl_cons, inductionHypothesis regular.2]
    by_cases own : effect.affVar = var
    · have isRegular := regular.1 own
      rw [List.filter_cons_of_pos (by simpa using own), List.foldl_cons]
      congr 1
      subst own
      unfold applyAssignEffect assignedValue
      rcases changes with type | type
      · simp [type, isRegular]
      · simp [type, isRegular]
    · rw [List.filter_cons_of_neg (by simpa using own)]
      congr 1
      simp only [applyAssignEffect]
      cases task.numericVarTypes effect.affVar with
      | instrumentation | regular => exact Function.update_of_ne (Ne.symm own) _ _
      | unknown | constant | derived => rfl

end NumericTask

end CutPlan.Search
