import CutPlan.Translate.SasOperator
import Mathlib.Data.Int.Log
import Mathlib.Data.Rat.Floor

/-! # Operators of the preprocessor

The operator as `Operator(istream)` reads it, and the text it writes for the search.  A variable is
named by its position in the translator's output; the causal graph gives it a level, or -1 if it is
pruned, and the level is its name in the search.
-/

namespace CutPlan.Preprocess

open CutPlan.Lib CutPlan.Sas

structure PrePost where
  var : ℕ
  pre : ℤ
  post : ℤ
  isConditionalEffect : Bool
  effectConds : List Condition
  deriving DecidableEq, Repr

structure NumericEffect where
  var : ℕ
  effectConds : List Condition
  fop : FOperator
  foperand : ℕ
  isConditionalEffect : Bool
  deriving DecidableEq, Repr

structure Operator where
  name : String
  prevail : List Condition
  prePost : List PrePost
  assignEffects : List NumericEffect
  cost : ℚ
  deriving DecidableEq, Repr

/-! ## Reading -/

def PrePost.make (var : ℕ) (effectConds : List Condition) (pre post : ℤ) : PrePost :=
  if effectConds.isEmpty then
    { var := var, pre := pre, post := post, isConditionalEffect := false, effectConds := [] }
  else
    { var := var, pre := pre, post := post, isConditionalEffect := true, effectConds := effectConds }

def PrePost.read : Reader PrePost := do
  let effectConds ← Condition.read.counted
  let var ← Reader.nat
  let pre ← Reader.int
  let post ← Reader.int
  return .make var effectConds pre post

/-- The constructor of an effect without conditions. -/
def NumericEffect.unconditional (var : ℕ) (fop : FOperator) (foperand : ℕ) : NumericEffect :=
  { var := var, effectConds := [], fop := fop, foperand := foperand, isConditionalEffect := false }

/-- The conditions are read, but the effect is built without them. -/
def NumericEffect.read : Reader NumericEffect := do
  let _ ← Condition.read.counted
  let var ← Reader.nat
  let fop ← FOperator.read
  let foperand ← Reader.nat
  return .unconditional var fop foperand

def Operator.read : Reader Operator := do
  Reader.magic "begin_operator"
  let name ← Reader.word
  let prevail ← Condition.read.counted
  let prePost ← PrePost.read.counted
  let assignEffects ← NumericEffect.read.counted
  let cost ← Reader.float
  Reader.magic "end_operator"
  return { name, prevail, prePost, assignEffects, cost }

/-! ## Stripping and writing -/

/-- The levels of the variables in the output; -1 stands for a pruned variable. -/
structure Levels where
  propositional : ℕ → ℤ
  numeric : ℕ → ℤ

variable (levels : Levels)

def Operator.stripUnimportantEffects (op : Operator) : Operator :=
  { op with
    prePost := op.prePost.filter fun effect => levels.propositional effect.var ≠ -1
    assignEffects := op.assignEffects.filter fun effect => levels.numeric effect.var ≠ -1 }

/-- Rounding to the nearest integer, ties to even. -/
def roundHalfEven (value : ℚ) : ℤ :=
  let below := ⌊value⌋
  if value - below < 1 / 2 then below
  else if 1 / 2 < value - below then below + 1
  else if 2 ∣ below then below else below + 1

/-- The number that a stream prints for a `double`: six significant digits. -/
def printedDouble (value : ℚ) : ℚ :=
  if value = 0 then 0
  else
    let scale : ℚ := 10 ^ (5 - Int.log 10 |value|)
    roundHalfEven (value * scale) / scale

def writeCondition (condition : Condition) : List Token :=
  [.int (levels.propositional condition.var), .int condition.val]

def PrePost.generateCppInput (effect : PrePost) : List Token :=
  writeCounted (writeCondition levels) effect.effectConds ++
    [.int (levels.propositional effect.var), .int effect.pre, .int effect.post]

def NumericEffect.generateCppInput (effect : NumericEffect) : List Token :=
  writeCounted (writeCondition levels) effect.effectConds ++
    [.int (levels.numeric effect.var), .word effect.fop.symbol,
      .int (levels.numeric effect.foperand)]

/-- Pruned prevail variables are skipped, although their number has been written. -/
def Operator.generateCppInput (op : Operator) : List Token :=
  [.word "begin_operator", .word op.name, .int op.prevail.length] ++
    (op.prevail.filter fun condition => levels.propositional condition.var ≠ -1).flatMap (writeCondition levels) ++
    writeCounted (PrePost.generateCppInput levels) op.prePost ++
    writeCounted (NumericEffect.generateCppInput levels) op.assignEffects ++
    [.float (printedDouble op.cost), .word "end_operator"]

end CutPlan.Preprocess
