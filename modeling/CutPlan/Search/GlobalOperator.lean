import CutPlan.Translate.SasOperator

/-! # Operators of the search

`GlobalOperator` as it is read from the output of the preprocessor.
-/

namespace CutPlan.Search

open CutPlan.Lib CutPlan.Sas

structure GlobalEffect where
  var : ℕ
  val : ℤ
  conditions : List Condition
  deriving DecidableEq, Repr

structure AssignEffect where
  affVar : ℕ
  fop : FOperator
  assVar : ℕ
  isConditionalEffect : Bool
  conditions : List Condition
  deriving DecidableEq, Repr

def AssignEffect.make (conditions : List Condition) (affVar : ℕ) (fop : FOperator) (assVar : ℕ) :
    AssignEffect :=
  { affVar := affVar
    fop := fop
    assVar := assVar
    isConditionalEffect := !conditions.isEmpty
    conditions := conditions }

structure GlobalOperator where
  preconditions : List Condition
  effects : List GlobalEffect
  assignEffects : List AssignEffect
  name : String
  cost : ℚ
  deriving DecidableEq, Repr

/-- The globals that reading an operator consults. -/
structure OperatorContext where
  variableDomain : List ℤ
  useMetric : Bool

namespace GlobalOperator

variable (context : OperatorContext)

/-! ## Reading -/

def factInBounds (condition : Condition) : Bool :=
  (context.variableDomain[condition.var]?).any fun domain => condition.val < domain

/-- A condition out of bounds ends the program. -/
def checkFact (condition : Condition) : Reader Unit :=
  if factInBounds context condition then pure () else StateT.lift none

def readCondition : Reader Condition := do
  let condition ← Condition.read
  checkFact context condition
  return condition

/-- What `read_pre_post` adds to the preconditions and the effects. -/
structure PrePost where
  precondition : List Condition
  effect : GlobalEffect

def PrePost.make (var : ℕ) (pre post : ℤ) (conditions : List Condition) : PrePost where
  precondition := if pre ≠ -1 then [{ var := var, val := pre }] else []
  effect := { var := var, val := post, conditions := conditions }

/-- The value -1 stands for no precondition. -/
def checkPrecondition (var : ℕ) (pre : ℤ) : Reader Unit :=
  if pre ≠ -1 then checkFact context { var := var, val := pre } else pure ()

def readPrePost : Reader PrePost := do
  let conditions ← (readCondition context).counted
  let var ← Reader.nat
  let pre ← Reader.int
  let post ← Reader.int
  checkPrecondition context var pre
  checkFact context { var := var, val := post }
  return .make var pre post conditions

def readAssignEffect : Reader AssignEffect := do
  let conditions ← (readCondition context).counted
  let affVar ← Reader.nat
  let fop ← FOperator.read
  let assVar ← Reader.nat
  return .make conditions affVar fop assVar

def make (name : String) (preconditions : List Condition) (prePosts : List PrePost)
    (assignEffects : List AssignEffect) (cost : ℚ) : GlobalOperator :=
  { preconditions := preconditions ++ prePosts.flatMap PrePost.precondition
    effects := prePosts.map PrePost.effect
    assignEffects := assignEffects
    name := name
    cost := if context.useMetric then cost else 1 }

def read : Reader GlobalOperator := do
  Reader.magic "begin_operator"
  let name ← Reader.word
  let preconditions ← (readCondition context).counted
  let prePosts ← (readPrePost context).counted
  let assignEffects ← (readAssignEffect context).counted
  let cost ← Reader.float
  Reader.magic "end_operator"
  return make context name preconditions prePosts assignEffects cost

def isApplicable (op : GlobalOperator) (values : ℕ → ℤ) : Bool :=
  Condition.allHold op.preconditions values

end GlobalOperator

end CutPlan.Search
