import CutPlan.Lib.TokenStream
import CutPlan.Preprocess.Task
import CutPlan.Translate.NumericAxiomRules

/-! # Numeric variables

The numeric part of a task: its variables, their initial values and the axioms that compute them, as the
translator writes it and the preprocessor reads it.
-/

namespace CutPlan.Translate

open CutPlan.Lib CutPlan.Preprocess CutPlan.Sas

/-! ## The translator's task -/

/-- The effect and the operands are the numbers of variables, or none where the dictionary has none. -/
structure WrittenNumericAxiom where
  op : Option CalOperator
  parts : List (Option ℕ)
  effect : Option ℕ
  deriving DecidableEq, Repr

structure SasNumericTask where
  types : List NumType
  axiomLayers : List ℤ
  numericValues : List ℚ
  numericAxioms : List WrittenNumericAxiom
  deriving Repr

/-- The axioms with variables of their own. -/
def keptAxioms (axioms : List InstantiatedNumericAxiom) (axiomMap : AxiomMap) :
    List InstantiatedNumericAxiom :=
  axioms.filter fun numericAxiom => numericAxiom.effect ∉ axiomMap.map Prod.fst

/-- What the variables stand for, in the order of their numbers. -/
def numericColumns (axioms : List InstantiatedNumericAxiom) (axiomMap : AxiomMap) (fluents : List Pne) :
    List Pne :=
  (keptAxioms axioms axiomMap).map InstantiatedNumericAxiom.effect ++
    fluents.filter (· ∉ axioms.map InstantiatedNumericAxiom.effect)

def numericDictionary (columns : List Pne) (axiomMap : AxiomMap) (pne : Pne) : Option ℕ :=
  columns.idxOf? (axiomMap.representative pne)

/-- A number among the operands has no variable. -/
def translateNumericAxiom (dictionary : Pne → Option ℕ) (numericAxiom : InstantiatedNumericAxiom) :
    WrittenNumericAxiom where
  op := numericAxiom.op
  parts := numericAxiom.parts.map fun
    | .numericConstant _ => none
    | .pne pne => dictionary pne
  effect := dictionary numericAxiom.effect

/-- The computed variables in the order of their layers.  Each one gets a layer of its own. -/
def layeredEffects (order : IterationOrder) (axioms : List InstantiatedNumericAxiom)
    (constantAxioms : List Pne) (axiomMap : AxiomMap) : List Pne :=
  ((layerKeys order axioms constantAxioms).filter (· ≠ -1)).flatMap fun layer =>
    ((order.byName (layerToAxioms order axioms constantAxioms layer)).map
      InstantiatedNumericAxiom.effect).filter (· ∉ axiomMap.map Prod.fst)

def numericLayer (effects : List Pne) (pne : Pne) : ℤ :=
  match effects.idxOf? pne with
  | some layer => layer
  | none => -1

def numericType (axioms : List InstantiatedNumericAxiom) (constantAxioms : List Pne) (pne : Pne) :
    NumType :=
  if pne ∈ constantAxioms then .constant
  else if pne ∈ axioms.map InstantiatedNumericAxiom.effect then .derived
  else if pne.symbol = .function "total-cost" then .instrumentation
  else .regular

/-- The initial value of a function, and the value of a constant. -/
def initialValue (facts : NumericFacts) (axioms : List InstantiatedNumericAxiom)
    (constantAxioms : List Pne) (pne : Pne) : ℚ :=
  match (axioms.find? (·.effect = pne)).map InstantiatedNumericAxiom.parts, pne.symbol with
  | some (.numericConstant value :: _), _ => if pne ∈ constantAxioms then value else 0
  | some _, _ => 0
  | none, .function name => (facts.initFunctionVals name pne.args).getD 0
  | none, _ => 0

structure NumericTranslation where
  task : SasNumericTask
  dictionary : Pne → Option ℕ

/-- The numeric part of `translate_task`. -/
def translateNumericTask (facts : NumericFacts) (order : IterationOrder) (fluents : List Pne)
    (axioms : List InstantiatedNumericAxiom) : Option NumericTranslation := do
  let (axioms, constantAxioms) ← identifyConstants axioms
  let axiomMap := identifyEquivalentAxioms
    ((layerKeys order axioms constantAxioms).map (layerToAxioms order axioms constantAxioms))
  let columns := numericColumns axioms axiomMap fluents
  let dictionary := numericDictionary columns axiomMap
  let effects := layeredEffects order axioms constantAxioms axiomMap
  return {
    task := {
      types := columns.map (numericType axioms constantAxioms)
      axiomLayers := columns.map (numericLayer effects)
      numericValues := columns.map (initialValue facts axioms constantAxioms)
      numericAxioms := ((keptAxioms axioms axiomMap).filter
        (·.effect ∉ constantAxioms)).map (translateNumericAxiom dictionary) }
    dictionary }

/-! ## Writing -/

def NumType.code : NumType → String
  | .unknown => "U"
  | .constant => "C"
  | .derived => "D"
  | .instrumentation => "I"
  | .regular => "R"

/-- A missing number is printed as `None`. -/
def outputNumber : Option ℕ → Token
  | some number => .int number
  | none => .word "None"

def WrittenNumericAxiom.output (numericAxiom : WrittenNumericAxiom) : List Token :=
  [outputNumber numericAxiom.effect,
      .word (match numericAxiom.op with | some op => op.symbol | none => "None")] ++
    numericAxiom.parts.map outputNumber

namespace SasNumericTask

def outputVariables (task : SasNumericTask) : List Token :=
  [.int task.types.length, .word "begin_numeric_variables"] ++
    (task.types.zip task.axiomLayers).flatMap (fun entry => [.word (NumType.code entry.1), .int entry.2]) ++
    [.word "end_numeric_variables"]

def outputState (task : SasNumericTask) : List Token :=
  [.word "begin_numeric_state"] ++ task.numericValues.map (fun value => .float (str value)) ++
    [.word "end_numeric_state"]

def outputAxioms (task : SasNumericTask) : List Token :=
  [.int task.numericAxioms.length, .word "begin_numeric_axioms"] ++
    task.numericAxioms.flatMap WrittenNumericAxiom.output ++ [.word "end_numeric_axioms"]

def output (task : SasNumericTask) : List Token :=
  task.outputVariables ++ task.outputState ++ task.outputAxioms

end SasNumericTask

/-! ## Reading -/

/-- What the preprocessor reads: types and layers of the variables, the initial values, and the axioms
in the order of the layers. -/
structure ReadNumericTask where
  numericVariables : List (NumType × ℤ)
  numericValues : List ℚ
  axiomsNumeric : List AxiomNumericComputation
  deriving Repr

/-- The reader of variables only knows constants and derived variables. -/
def readNumericVariable : Reader (NumType × ℤ) := do
  let code ← Reader.word
  let layer ← Reader.int
  return (if code = "C" then .constant else if code = "D" then .derived else .unknown, layer)

def readAxiomNumericComputation : Reader AxiomNumericComputation := do
  let effectVar ← Reader.nat
  let fop ← CalOperator.read
  let leftVar ← Reader.nat
  let rightVar ← Reader.nat
  return { effectVar, fop, leftVar, rightVar }

def sortByLayer (numericVariables : List (NumType × ℤ)) (axioms : List AxiomNumericComputation) :
    List AxiomNumericComputation :=
  let layer (rule : AxiomNumericComputation) : ℤ := (numericVariables[rule.effectVar]?.map Prod.snd).getD (-1)
  axioms.mergeSort fun first second => layer first ≤ layer second

def readNumericTask : Reader ReadNumericTask := do
  let count ← Reader.nat
  Reader.magic "begin_numeric_variables"
  let numericVariables ← Reader.many readNumericVariable count
  Reader.magic "end_numeric_variables"
  Reader.magic "begin_numeric_state"
  let numericValues ← Reader.many Reader.float count
  Reader.magic "end_numeric_state"
  let axiomCount ← Reader.nat
  Reader.magic "begin_numeric_axioms"
  let axioms ← Reader.many readAxiomNumericComputation axiomCount
  Reader.magic "end_numeric_axioms"
  return { numericVariables, numericValues, axiomsNumeric := sortByLayer numericVariables axioms }

namespace ReadNumericTask

/-- A state gives values to the variables that no axiom computes.  Constants have their initial values. -/
def startValues (task : ReadNumericTask) (state : ℕ → ℚ) (var : ℕ) : ℚ :=
  match task.numericVariables[var]? with
  | some (.derived, _) => 0
  | some (.constant, _) => task.numericValues.getD var 0
  | _ => state var

def evaluate (task : ReadNumericTask) (state : ℕ → ℚ) : ℕ → ℚ :=
  task.axiomsNumeric.foldl Task.compute (task.startValues state)

end ReadNumericTask

end CutPlan.Translate
