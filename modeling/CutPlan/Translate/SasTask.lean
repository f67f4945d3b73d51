import CutPlan.Preprocess.Task
import Mathlib.Data.List.Lex
import Mathlib.Data.Prod.Lex
import Mathlib.Data.String.Basic

/-! # Tasks of the translator

`SASTask` with its parts, and its meaning: the task that its text describes to the preprocessor.
-/

namespace CutPlan.Translate

open CutPlan.Lib CutPlan.Sas

structure SasAxiom where
  condition : List Condition
  effect : Condition
  deriving DecidableEq, Repr

structure SasCompareAxiom where
  comp : CompOperator
  left : ℕ
  right : ℕ
  effect : ℕ
  deriving DecidableEq, Repr

/-- An arithmetic operator and three numeric variables; the third one stands for the value that the
operator computes from the first two. -/
structure SasNumericAxiom where
  op : CalOperator
  left : ℕ
  right : ℕ
  effect : ℕ
  deriving DecidableEq, Repr

/-- `axiomLayers` has -1 for variables that no axiom derives. -/
structure SasTask where
  ranges : List ℕ
  axiomLayers : List ℤ
  init : List ℤ
  numericTypes : List NumType
  numericLayers : List ℤ
  numericInit : List ℚ
  mutexes : List (List Condition)
  goal : List Condition
  operators : List SasOperator
  axioms : List SasAxiom
  compAxioms : List SasCompareAxiom
  numericAxioms : List SasNumericAxiom
  globalConstraint : Condition
  metric : ℕ
  deriving DecidableEq, Repr

/-! ## Canonical order

Python compares tuples and lists lexicographically.
-/

def factKey (fact : Condition) : ℕ ×ₗ ℤ :=
  toLex (fact.var, fact.val)

def sortFacts (facts : List Condition) : List Condition :=
  facts.mergeSort fun first second => factKey first ≤ factKey second

namespace SasPrePost

def key (effect : SasPrePost) : ℕ ×ₗ ℤ ×ₗ ℤ ×ₗ List (ℕ ×ₗ ℤ) :=
  toLex (effect.var, toLex (effect.pre, toLex (effect.post, effect.cond.map factKey)))

/-- `_canonical_pre_post` -/
def canonical (effects : List SasPrePost) : List SasPrePost :=
  effects.dedup.mergeSort fun first second => first.key ≤ second.key

end SasPrePost

namespace SasAssignEffect

def key (effect : SasAssignEffect) : ℕ ×ₗ String ×ₗ ℕ ×ₗ List (ℕ ×ₗ ℤ) :=
  toLex (effect.nvar, toLex (effect.op.symbol, toLex (effect.assVar, effect.cond.map factKey)))

def sort (effects : List SasAssignEffect) : List SasAssignEffect :=
  effects.mergeSort fun first second => first.key ≤ second.key

end SasAssignEffect

namespace SasOperator

/-- The constructor of `SASOperator`. -/
def make (name : String) (prevail : List Condition) (prePost : List SasPrePost)
    (assignEffects : List SasAssignEffect) (cost : ℚ) : SasOperator :=
  { name := name
    prevail := sortFacts prevail
    prePost := SasPrePost.canonical prePost
    assignEffects := SasAssignEffect.sort assignEffects
    cost := cost }

/-- The assertions of the source give every variable at most one value here. -/
def getApplicabilityConditions (op : SasOperator) : List Condition :=
  let preconditions := (op.prePost.filter fun effect => effect.pre ≠ -1).map fun effect =>
    ({ var := effect.var, val := effect.pre } : Condition)
  sortFacts (op.prevail ++ preconditions).dedup

end SasOperator

/-! ## Meaning -/

namespace SasPrePost

def meaning (effect : SasPrePost) : Preprocess.PrePost where
  var := effect.var
  pre := effect.pre
  post := effect.post
  isConditionalEffect := !effect.cond.isEmpty
  effectConds := effect.cond

end SasPrePost

namespace SasAssignEffect

def meaning (effect : SasAssignEffect) : Preprocess.NumericEffect where
  var := effect.nvar
  effectConds := effect.cond
  fop := effect.op
  foperand := effect.assVar
  isConditionalEffect := !effect.cond.isEmpty

end SasAssignEffect

namespace SasOperator

def meaning (op : SasOperator) : Preprocess.Operator where
  name := op.name
  prevail := op.prevail
  prePost := op.prePost.map SasPrePost.meaning
  assignEffects := op.assignEffects.map SasAssignEffect.meaning
  cost := op.cost

end SasOperator

namespace SasAxiom

/-- A rule is written with the other one of the values 0 and 1 as the old value. -/
def meaning (rule : SasAxiom) : Preprocess.AxiomRelational where
  conditions := rule.condition
  effectVar := rule.effect.var
  oldVal := 1 - rule.effect.val
  effectVal := rule.effect.val

end SasAxiom

namespace SasTask

def layer (task : SasTask) (var : ℕ) : Option ℕ :=
  match task.axiomLayers[var]? with
  | some layer => if layer = -1 then none else some layer.toNat
  | none => none

def meaning (task : SasTask) : Preprocess.Task where
  layer := task.layer
  defaultValue := fun var => task.init.getD var 0
  numericType := fun var => task.numericTypes.getD var .unknown
  numericLayer := fun var => (task.numericLayers.getD var (-1)).toNat
  initialState :=
    { values := fun var => task.init.getD var 0
      numericValues := fun var => task.numericInit.getD var 0 }
  operators := task.operators.map SasOperator.meaning
  axiomsRel := task.axioms.map SasAxiom.meaning
  axiomsNumeric := task.numericAxioms.map fun rule =>
    { effectVar := rule.effect, fop := rule.op, leftVar := rule.left, rightVar := rule.right }
  axiomsFuncComp := task.compAxioms.map fun rule =>
    { effectVar := rule.effect, cop := rule.comp, leftVar := rule.left, rightVar := rule.right }
  goals := task.goal
  globalConstraint := task.globalConstraint
  metric := task.metric

/-! ## Validity -/

def ValidFact (task : SasTask) (fact : Condition) : Prop :=
  ∃ size, task.ranges[fact.var]? = some size ∧ 0 ≤ fact.val ∧ fact.val < size

instance (task : SasTask) (fact : Condition) : Decidable (task.ValidFact fact) :=
  match isSize : task.ranges[fact.var]? with
  | some size =>
    if within : 0 ≤ fact.val ∧ fact.val < size then .isTrue ⟨size, isSize, within⟩
    else .isFalse fun ⟨_, isOther, otherWithin⟩ =>
      within (Option.some.inj (isSize.symm.trans isOther) ▸ otherWithin)
  | none => .isFalse fun ⟨_, isOther, _⟩ => nomatch isSize.symm.trans isOther

/-- A condition mentions each variable at most once. -/
structure ValidCondition (task : SasTask) (condition : List Condition) : Prop where
  facts : ∀ fact ∈ condition, task.ValidFact fact
  distinct : (condition.map Condition.var).Nodup

structure ValidOperator (task : SasTask) (op : SasOperator) : Prop where
  prevail : task.ValidCondition op.prevail
  conds : ∀ effect ∈ op.prePost, task.ValidCondition effect.cond
  notPrevailed : ∀ effect ∈ op.prePost, ∀ fact ∈ op.prevail, fact.var ≠ effect.var
  pre : ∀ effect ∈ op.prePost, effect.pre ≠ -1 →
    task.ValidFact { var := effect.var, val := effect.pre }
  post : ∀ effect ∈ op.prePost, task.ValidFact { var := effect.var, val := effect.post }
  samePre : ∀ effect ∈ op.prePost, ∀ other ∈ op.prePost, effect.var = other.var →
    effect.pre = other.pre
  /-- The translator ignores an effect that does not change the value of the variable. -/
  changes : ∀ effect ∈ op.prePost, effect.pre ≠ effect.post
  canonical : SasPrePost.canonical op.prePost = op.prePost
  sorted : SasAssignEffect.sort op.assignEffects = op.assignEffects

/-- The structural rules of `validate`. -/
structure Valid (task : SasTask) : Prop where
  layers : task.axiomLayers.length = task.ranges.length
  inits : task.init.length = task.ranges.length
  sizes : ∀ size ∈ task.ranges, 2 ≤ size
  initFacts : ∀ var value, task.init[var]? = some value → task.ValidFact { var := var, val := value }
  goal : ∀ fact ∈ task.goal, task.ValidFact fact
  operators : ∀ op ∈ task.operators, task.ValidOperator op
  axiomConditions : ∀ rule ∈ task.axioms, ∀ fact ∈ rule.condition, task.ValidFact fact
  axiomEffects : ∀ rule ∈ task.axioms, task.ValidFact rule.effect
  comparisons : ∀ rule ∈ task.compAxioms, rule.effect < task.ranges.length
  globalConstraint : task.ValidFact task.globalConstraint
  axiomsDerive : task.meaning.AxiomsDerive

end SasTask

end CutPlan.Translate
