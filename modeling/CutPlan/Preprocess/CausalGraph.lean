import CutPlan.Lib.DepthFirst
import CutPlan.Preprocess.Task

/-! # Relevance analysis

The predecessor graph of `CausalGraph`, the marking of necessary variables by
`calculate_important_vars`, and what is stripped from the task afterwards.
-/

namespace CutPlan.Preprocess

open CutPlan.Lib CutPlan.Sas

inductive CGVar where
  | propositional (var : ℕ)
  | numeric (var : ℕ)
  deriving DecidableEq, Repr

/-- An edge from a variable to one that depends on it. -/
structure CGEdge where
  source : CGVar
  target : CGVar
  deriving DecidableEq, Repr

def conditionVars (conditions : List Condition) : List CGVar :=
  conditions.map fun condition => .propositional condition.var

/-- The edges from a list of sources, without loops. -/
def edgesTo (target : CGVar) (sources : List CGVar) : List CGEdge :=
  (sources.filter (· ≠ target)).map fun source => { source := source, target := target }

namespace Operator

def preconditionVars (op : Operator) : List CGVar :=
  conditionVars op.prevail ++
    (op.prePost.filter fun effect => effect.pre ≠ -1).map fun effect => .propositional effect.var

def prePostEdges (op : Operator) (effect : PrePost) : List CGEdge :=
  edgesTo (.propositional effect.var)
    (op.preconditionVars ++
      if effect.isConditionalEffect then conditionVars effect.effectConds else [])

def numericEdges (op : Operator) (effect : NumericEffect) : List CGEdge :=
  edgesTo (.numeric effect.var)
    (op.preconditionVars ++
      (if effect.isConditionalEffect then conditionVars effect.effectConds else []) ++
      [.numeric effect.foperand])

def edges (op : Operator) : List CGEdge :=
  op.prePost.flatMap op.prePostEdges ++ op.assignEffects.flatMap op.numericEdges

end Operator

namespace AxiomRelational

def edges (rule : AxiomRelational) : List CGEdge :=
  edgesTo (.propositional rule.effectVar) (conditionVars rule.conditions)

end AxiomRelational

namespace AxiomFunctionalComparison

def edges (rule : AxiomFunctionalComparison) : List CGEdge :=
  edgesTo (.propositional rule.effectVar) [.numeric rule.leftVar, .numeric rule.rightVar]

end AxiomFunctionalComparison

namespace AxiomNumericComputation

def edges (rule : AxiomNumericComputation) : List CGEdge :=
  edgesTo (.numeric rule.effectVar) [.numeric rule.leftVar, .numeric rule.rightVar]

end AxiomNumericComputation

namespace Task

variable (task : Task)

def edges : List CGEdge :=
  task.operators.flatMap Operator.edges ++ task.axiomsRel.flatMap AxiomRelational.edges ++
    task.axiomsFuncComp.flatMap AxiomFunctionalComparison.edges ++
    task.axiomsNumeric.flatMap AxiomNumericComputation.edges

def predecessors (target : CGVar) : List CGVar :=
  (task.edges.filter fun edge => edge.target = target).map CGEdge.source

/-! ## Necessary variables -/

/-- The variables whose necessity does not depend on others. -/
def relevanceRoots : List CGVar :=
  conditionVars task.goals ++ conditionVars [task.globalConstraint]

/-- The variables marked by the depth-first search from the goals and the global constraint. -/
def relevantVars : Finset CGVar :=
  markAll task.predecessors (task.edges.length + task.relevanceRoots.length) task.relevanceRoots ∅

/-- `set_variable_instrumentation_necessary`; the recursion descends the layers of the arithmetic
axioms. -/
def setVariableInstrumentationNecessary : ℕ → ℕ → Finset ℕ → Finset ℕ
  | 0, _, marked => marked
  | fuel + 1, var, marked =>
    task.axiomsNumeric.foldl
      (fun marked rule =>
        if rule.effectVar = var then
          setVariableInstrumentationNecessary fuel rule.rightVar
            (setVariableInstrumentationNecessary fuel rule.leftVar marked)
        else marked)
      (if .numeric var ∈ task.relevantVars then marked else insert var marked)

def markInstrumentation (var : ℕ) (marked : Finset ℕ) : Finset ℕ :=
  task.setVariableInstrumentationNecessary (task.numericLayer var + 1) var marked

/-- The type of a variable after some instrumentation variables have been marked. -/
def typeAfter (marked : Finset ℕ) (var : ℕ) : NumType :=
  if task.numericType var ≠ .unknown then task.numericType var
  else if .numeric var ∈ task.relevantVars then .regular
  else if var ∈ marked then .instrumentation
  else .unknown

def markOperand (marked : Finset ℕ) (effect : NumericEffect) : Finset ℕ :=
  if task.typeAfter marked effect.var = .instrumentation then
    task.markInstrumentation effect.foperand marked
  else marked

/-- The numeric variables marked for the metric: in one pass over the effects of the operators. -/
def metricVars : Finset ℕ :=
  (task.operators.flatMap Operator.assignEffects).foldl task.markOperand
    (task.markInstrumentation task.metric ∅)

def isNecessary (var : CGVar) : Bool :=
  var ∈ task.relevantVars ||
    match var with
    | .propositional _ => false
    | .numeric numericVar => numericVar ∈ task.metricVars

def analysedType (var : ℕ) : NumType :=
  task.typeAfter task.metricVars var

/-! ## The pruned task -/

/-- The levels given to the necessary variables; here they keep their numbers. -/
def levels : Levels where
  propositional := fun var => if task.isNecessary (.propositional var) then var else -1
  numeric := fun var => if task.isNecessary (.numeric var) then var else -1

def isRedundant (op : Operator) : Bool :=
  op.prePost.isEmpty && op.assignEffects.all fun effect => task.analysedType effect.var ≠ .regular

/-- The operator is still there after `strip_operators`. -/
def isRetained (op : Operator) : Bool :=
  !task.isRedundant (op.stripUnimportantEffects task.levels)

/-- The task as it is read, with the types found by the analysis. -/
def analysed : Task :=
  { task with numericType := task.analysedType }

def pruned : Task :=
  { task.analysed with
    operators := (task.operators.filter task.isRetained).map
      (Operator.stripUnimportantEffects task.levels)
    axiomsRel := task.axiomsRel.filter fun rule => task.isNecessary (.propositional rule.effectVar)
    axiomsNumeric := task.axiomsNumeric.filter fun rule => task.isNecessary (.numeric rule.effectVar)
    axiomsFuncComp := task.axiomsFuncComp.filter fun rule =>
      task.isNecessary (.propositional rule.effectVar) }

end Task

end CutPlan.Preprocess
