import CutPlan.Sas.Arithmetic

/-! # Operators of the translator

`SASOperator` and the text it writes for the preprocessor.
-/

namespace CutPlan.Sas

open CutPlan.Lib

/-- A variable of a finite domain and one of its values. -/
structure Condition where
  var : ℕ
  val : ℤ
  deriving DecidableEq, Repr

namespace Condition

def write (condition : Condition) : List Token :=
  [.int condition.var, .int condition.val]

def read : Reader Condition := do
  let var ← Reader.nat
  let val ← Reader.int
  return { var := var, val := val }

theorem reads (condition : Condition) : Reads read condition.write condition :=
  (Reads.nat condition.var).bind ((Reads.int condition.val).map (Condition.mk condition.var))

/-- A list of conditions holds under an assignment of values to variables. -/
def allHold (conditions : List Condition) (values : ℕ → ℤ) : Bool :=
  conditions.all fun condition => values condition.var = condition.val

end Condition

end CutPlan.Sas

namespace CutPlan.Translate

open CutPlan.Lib CutPlan.Sas

structure SasPrePost where
  var : ℕ
  pre : ℤ
  post : ℤ
  cond : List Condition
  deriving DecidableEq, Repr

structure SasAssignEffect where
  nvar : ℕ
  op : FOperator
  assVar : ℕ
  cond : List Condition
  deriving DecidableEq, Repr

structure SasOperator where
  name : String
  prevail : List Condition
  prePost : List SasPrePost
  assignEffects : List SasAssignEffect
  cost : ℚ
  deriving DecidableEq, Repr

def SasPrePost.output (effect : SasPrePost) : List Token :=
  writeCounted Condition.write effect.cond ++ [.int effect.var, .int effect.pre, .int effect.post]

def SasAssignEffect.output (effect : SasAssignEffect) : List Token :=
  writeCounted Condition.write effect.cond ++
    [.int effect.nvar, .word effect.op.symbol, .int effect.assVar]

/-- The name is written without its parentheses. -/
def SasOperator.output (op : SasOperator) : List Token :=
  [.word "begin_operator", .word op.name] ++
    writeCounted Condition.write op.prevail ++
    writeCounted SasPrePost.output op.prePost ++
    writeCounted SasAssignEffect.output op.assignEffects ++
    [.float op.cost, .word "end_operator"]

end CutPlan.Translate
