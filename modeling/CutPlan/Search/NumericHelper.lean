import CutPlan.Search.NumericSuccessor
import Mathlib.Algebra.BigOperators.Group.Finset.Basic

/-! # The numeric task proxy

`NumericTaskProxy` describes the numeric part of a task by linear expressions over the regular
variables and classifies the numeric effects of every operator.  Regular variables keep their
numbers here.
-/

namespace CutPlan.Search

open CutPlan.Sas

/-- A linear expression; as a condition it asks for a value of at least zero. -/
structure LinearNumericCondition where
  coefficients : ℕ → ℚ
  constant : ℚ
  isStrictlyGreater : Bool

structure ProxyTask extends NumericTask where
  numericVarCount : ℕ
  initialStateNumeric : ℕ → ℚ
  regular_lt_count : ∀ var, numericVarTypes var = .regular → var < numericVarCount

namespace LinearNumericCondition

def zero : LinearNumericCondition :=
  { coefficients := fun _ => 0, constant := 0, isStrictlyGreater := false }

def add (left right : LinearNumericCondition) : LinearNumericCondition where
  coefficients := fun var => left.coefficients var + right.coefficients var
  constant := left.constant + right.constant
  isStrictlyGreater := false

def sub (left right : LinearNumericCondition) : LinearNumericCondition where
  coefficients := fun var => left.coefficients var - right.coefficients var
  constant := left.constant - right.constant
  isStrictlyGreater := false

/-- The value of the expression, summed over the regular variables. -/
def eval (regularVars : Finset ℕ) (expression : LinearNumericCondition) (numericVars : ℕ → ℚ) : ℚ :=
  (∑ var ∈ regularVars, expression.coefficients var * numericVars var) + expression.constant

end LinearNumericCondition

namespace ProxyTask

variable (task : ProxyTask)

def regularVars : Finset ℕ :=
  (Finset.range task.numericVarCount).filter fun var => task.numericVarTypes var = .regular

/-! ## Artificial variables -/

def initialArtificialVariable (var : ℕ) : LinearNumericCondition :=
  match task.numericVarTypes var with
  | .regular => { LinearNumericCondition.zero with coefficients := fun other => if other = var then 1 else 0 }
  | .unknown => .zero
  | _ => { LinearNumericCondition.zero with constant := task.initialStateNumeric var }

/-- One iteration of the loop over the assignment axioms.  Products and quotients read only the
constant of the operand that is taken for a constant. -/
def combine (artificialVariables : ℕ → LinearNumericCondition) (assAxiom : AssignmentAxiom) :
    ℕ → LinearNumericCondition :=
  let lhs := artificialVariables assAxiom.varLhs
  let rhs := artificialVariables assAxiom.varRhs
  Function.update artificialVariables assAxiom.affectedVariable <|
    match assAxiom.op with
    | .sum => lhs.add rhs
    | .diff => lhs.sub rhs
    | .mult =>
      if task.numericVarTypes assAxiom.varLhs = .constant then
        { LinearNumericCondition.zero with
          coefficients := fun var => lhs.constant * rhs.coefficients var
          constant := lhs.constant * rhs.constant }
      else
        { LinearNumericCondition.zero with
          coefficients := fun var => lhs.coefficients var * rhs.constant
          constant := lhs.constant * rhs.constant }
    | .divi =>
      { LinearNumericCondition.zero with
        coefficients := fun var => lhs.coefficients var / rhs.constant
        constant := lhs.constant / rhs.constant }

def artificialVariables : ℕ → LinearNumericCondition :=
  task.assAxioms.foldl task.combine task.initialArtificialVariable

end ProxyTask

/-! ## Actions -/

structure LinearEffect where
  lhs : ℕ
  coefficients : ℕ → ℚ
  constant : ℚ
  conditions : List Condition

structure ConditionalNumericEffect where
  var : ℕ
  value : ℚ
  conditions : List Condition

/-- The numeric effects of an operator and its cost. -/
structure Action where
  effList : ℕ → ℚ
  isAssignment : ℕ → Bool
  assignList : ℕ → ℚ
  conditionalEffList : List ConditionalNumericEffect
  conditionalAssignList : List ConditionalNumericEffect
  linearEffects : List LinearEffect
  cost : ℚ
  linearCost : Bool
  costCoefficients : ℕ → ℚ
  costConstant : ℚ

def Action.empty (cost : ℚ) : Action where
  effList := fun _ => 0
  isAssignment := fun _ => false
  assignList := fun _ => 0
  conditionalEffList := []
  conditionalAssignList := []
  linearEffects := []
  cost := cost
  linearCost := false
  costCoefficients := fun _ => 0
  costConstant := 0

structure ProxyOptions where
  precision : ℚ
  separateConstantAssignment : Bool

namespace ProxyTask

variable (task : ProxyTask) (options : ProxyOptions)

/-- The sign with which an effect adds its right-hand side. -/
def signed (fop : FOperator) (value : ℚ) : ℚ :=
  if fop = .decrease then -value else value

def hasOtherCoefficients (expression : LinearNumericCondition) (var : ℕ) : Bool :=
  decide (∃ other ∈ task.regularVars, other ≠ var ∧
    options.precision ≤ |expression.coefficients other|)

def isConstantEffect (expression : LinearNumericCondition) (var : ℕ) : Bool :=
  !task.hasOtherCoefficients options expression var &&
    |expression.coefficients var| < options.precision

def isSimpleEffect (effect : AssignEffect) (expression : LinearNumericCondition) : Bool :=
  task.isConstantEffect options expression effect.affVar &&
    (effect.fop = .increase || effect.fop = .decrease)

/-- Also an effect that replaces the old value of the variable assigns a constant. -/
def isAssignmentEffect (effect : AssignEffect) (expression : LinearNumericCondition) : Bool :=
  options.separateConstantAssignment &&
    !task.hasOtherCoefficients options expression effect.affVar &&
    ((task.isConstantEffect options expression effect.affVar && effect.fop = .assign) ||
      (|expression.coefficients effect.affVar + 1| < options.precision && effect.fop = .increase) ||
      (|expression.coefficients effect.affVar - 1| < options.precision && effect.fop = .decrease))

def linearEffect (effect : AssignEffect) (expression : LinearNumericCondition) : LinearEffect where
  lhs := effect.affVar
  coefficients := fun var =>
    signed effect.fop (expression.coefficients var) +
      if effect.fop ≠ .assign ∧ var = effect.affVar then 1 else 0
  constant := signed effect.fop expression.constant
  conditions := effect.conditions

/-- An effect on a variable of the metric.  A change by a constant is part of the cost already. -/
def addCostEffect (action : Action) (effect : AssignEffect) (expression : LinearNumericCondition) :
    Action :=
  if !effect.conditions.isEmpty || (effect.fop ≠ .increase && effect.fop ≠ .decrease) then action
  else if ∀ var ∈ task.regularVars, |expression.coefficients var| < options.precision then action
  else
    { action with
      cost := 0
      linearCost := true
      costCoefficients := fun var =>
        if options.precision ≤ |expression.coefficients var| then
          signed effect.fop (expression.coefficients var)
        else 0
      costConstant := signed effect.fop expression.constant }

/-- An effect on a regular variable.  Slots of the variable that are set already are overwritten. -/
def addRegularEffect (action : Action) (effect : AssignEffect)
    (expression : LinearNumericCondition) : Action :=
  let value := signed effect.fop expression.constant
  if task.isSimpleEffect options effect expression then
    if effect.conditions.isEmpty then
      { action with effList := Function.update action.effList effect.affVar value }
    else
      { action with
        conditionalEffList := action.conditionalEffList ++
          [{ var := effect.affVar, value := value, conditions := effect.conditions }] }
  else if task.isAssignmentEffect options effect expression then
    if effect.conditions.isEmpty then
      { action with
        assignList := Function.update action.assignList effect.affVar value
        isAssignment := Function.update action.isAssignment effect.affVar true }
    else
      { action with
        conditionalAssignList := action.conditionalAssignList ++
          [{ var := effect.affVar, value := value, conditions := effect.conditions }] }
  else
    { action with linearEffects := action.linearEffects ++ [linearEffect effect expression] }

/-- The loop over the numeric effects in `build_action`.  That effects change regular variables or
variables of the metric only is asserted. -/
def addNumericEffect (action : Action) (effect : AssignEffect) : Action :=
  let expression := task.artificialVariables effect.assVar
  match task.numericVarTypes effect.affVar with
  | .instrumentation => task.addCostEffect options action effect expression
  | .regular => task.addRegularEffect options action effect expression
  | _ => action

def buildAction (op : GlobalOperator) : Action :=
  op.assignEffects.foldl (task.addNumericEffect options) (.empty op.cost)

end ProxyTask

end CutPlan.Search
