import CutPlan.Preprocess.Operator
import Mathlib.Logic.Function.Iterate

/-! # Tasks of the preprocessor

The task that the preprocessor reads, and its meaning.  A state assigns values to all variables; the
derived ones are recomputed from the others after every operator: first by the arithmetic axioms,
then by the comparison axioms and last, layer by layer, by the relational axioms.
-/

namespace CutPlan.Preprocess

open CutPlan.Sas

structure AxiomRelational where
  conditions : List Condition
  effectVar : ℕ
  oldVal : ℤ
  effectVal : ℤ
  deriving DecidableEq, Repr

structure AxiomNumericComputation where
  effectVar : ℕ
  fop : CalOperator
  leftVar : ℕ
  rightVar : ℕ
  deriving DecidableEq, Repr

structure AxiomFunctionalComparison where
  effectVar : ℕ
  cop : CompOperator
  leftVar : ℕ
  rightVar : ℕ
  deriving DecidableEq, Repr

@[ext] structure State where
  values : ℕ → ℤ
  numericValues : ℕ → ℚ

/-- `layer` is `none` for variables that no axiom derives.  `numericLayer` is 0 for numeric variables
that are not derived. -/
structure Task where
  layer : ℕ → Option ℕ
  defaultValue : ℕ → ℤ
  numericType : ℕ → NumType
  numericLayer : ℕ → ℕ
  initialState : State
  operators : List Operator
  axiomsRel : List AxiomRelational
  axiomsNumeric : List AxiomNumericComputation
  axiomsFuncComp : List AxiomFunctionalComparison
  goals : List Condition
  globalConstraint : Condition
  metric : ℕ

def Operator.isApplicable (op : Operator) (state : State) : Bool :=
  Condition.allHold op.prevail state.values &&
    op.prePost.all fun effect => effect.pre = -1 || state.values effect.var = effect.pre

/-- What axioms derive is a derived variable. -/
structure Task.AxiomsDerive (task : Task) : Prop where
  byRule : ∀ rule ∈ task.axiomsRel, (task.layer rule.effectVar).isSome = true
  byComparison : ∀ rule ∈ task.axiomsFuncComp, (task.layer rule.effectVar).isSome = true
  byComputation : ∀ rule ∈ task.axiomsNumeric, task.numericType rule.effectVar = .derived

/-- What the translator guarantees of the tasks it writes. -/
structure Task.WellFormed (task : Task) : Prop extends Task.AxiomsDerive task where
  prePostFlags : ∀ op ∈ task.operators, ∀ effect ∈ op.prePost,
    effect.isConditionalEffect = !effect.effectConds.isEmpty
  /-- Operators change neither constants nor derived numeric variables. -/
  changeable : ∀ op ∈ task.operators, ∀ effect ∈ op.assignEffects,
    task.numericType effect.var = .unknown
  layered : ∀ rule ∈ task.axiomsNumeric,
    task.numericLayer rule.leftVar < task.numericLayer rule.effectVar ∧
      task.numericLayer rule.rightVar < task.numericLayer rule.effectVar

namespace Task

variable (task : Task)

/-! ## Derived variables -/

def resetDerived (state : State) : State where
  values := fun var => if (task.layer var).isSome then task.defaultValue var else state.values var
  numericValues := fun var =>
    if task.numericType var = .derived then 0 else state.numericValues var

def compute (numericValues : ℕ → ℚ) (rule : AxiomNumericComputation) : ℕ → ℚ :=
  Function.update numericValues rule.effectVar
    (rule.fop.eval (numericValues rule.leftVar) (numericValues rule.rightVar))

/-- A comparison that holds gives its variable the value 0. -/
def compare (numericValues : ℕ → ℚ) (values : ℕ → ℤ) (rule : AxiomFunctionalComparison) : ℕ → ℤ :=
  Function.update values rule.effectVar
    (if rule.cop.eval (numericValues rule.leftVar) (numericValues rule.rightVar) then 0 else 1)

def ruleFires (layer : ℕ) (values : ℕ → ℤ) (var : ℕ) (rule : AxiomRelational) : Bool :=
  rule.effectVar = var && task.layer var = some layer && Condition.allHold rule.conditions values

/-- Applies the rules of a layer at once to the variables that still have their default value. -/
def applyRules (layer : ℕ) (values : ℕ → ℤ) : ℕ → ℤ := fun var =>
  match task.axiomsRel.find? (task.ruleFires layer values var) with
  | some rule => if values var = task.defaultValue var then rule.effectVal else values var
  | none => values var

def layerCount : ℕ :=
  (task.axiomsRel.map fun rule => (task.layer rule.effectVar).getD 0).foldr max 0 + 1

/-- No layer needs more rounds than there are rules. -/
def evaluateRules (values : ℕ → ℤ) : ℕ → ℤ :=
  (List.range task.layerCount).foldl
    (fun values layer => (task.applyRules layer)^[task.axiomsRel.length] values) values

def evaluateAxioms (state : State) : State :=
  let stored := task.resetDerived state
  let numericValues := task.axiomsNumeric.foldl compute stored.numericValues
  { values := task.evaluateRules (task.axiomsFuncComp.foldl (compare numericValues) stored.values)
    numericValues := numericValues }

/-! ## Operators -/

def applyPrePost (state : State) (values : ℕ → ℤ) (effect : PrePost) : ℕ → ℤ :=
  if Condition.allHold effect.effectConds state.values then
    Function.update values effect.var effect.post
  else values

/-- Instrumentation variables are read in the values computed so far, all others in the state. -/
def applyNumericEffect (state : State) (numericValues : ℕ → ℚ) (effect : NumericEffect) : ℕ → ℚ :=
  if Condition.allHold effect.effectConds state.values then
    let operand :=
      if task.numericType effect.foperand = .instrumentation then numericValues effect.foperand
      else state.numericValues effect.foperand
    Function.update numericValues effect.var
      (effect.fop.assignEffect (numericValues effect.var) operand)
  else numericValues

def applyOperator (op : Operator) (state : State) : State where
  values := op.prePost.foldl (applyPrePost state) state.values
  numericValues := op.assignEffects.foldl (task.applyNumericEffect state) state.numericValues

def successor (op : Operator) (state : State) : State :=
  task.evaluateAxioms (task.applyOperator op state)

def isGoal (state : State) : Bool :=
  Condition.allHold task.goals state.values

def satisfiesGlobalConstraint (state : State) : Bool :=
  Condition.allHold [task.globalConstraint] state.values

/-- The sequence is executable in the state, satisfies the global constraint in every state and ends
in a goal. -/
def Solves : State → List Operator → Prop
  | state, [] => task.satisfiesGlobalConstraint state = true ∧ task.isGoal state = true
  | state, op :: plan =>
    task.satisfiesGlobalConstraint state = true ∧ op.isApplicable state = true ∧
      Solves (task.successor op state) plan

end Task

end CutPlan.Preprocess
