import CutPlan.Lib.Numbering
import CutPlan.Lib.Worklist
import CutPlan.Translate.SasTask

/-! # Simplification of the translator's task

`filter_unreachable_propositions`: the values of each variable that its domain transition graph does not
reach are removed, then the variables with one value, and everything that mentions a variable or a
value is renumbered.
-/

namespace CutPlan.Translate

open CutPlan.Lib CutPlan.Sas

/-! ## Domain transition graphs -/

structure DomainTransitionGraph where
  init : ℤ
  size : ℕ
  arcs : List (ℤ × ℤ)
  deriving DecidableEq, Repr

namespace DomainTransitionGraph

def successors (dtg : DomainTransitionGraph) (value : ℤ) : List ℤ :=
  (dtg.arcs.filter fun arc => arc.1 = value).map Prod.snd

/-- No value is put on the queue twice, so the loop ends after `size` rounds. -/
def reachable (dtg : DomainTransitionGraph) : List ℤ :=
  explore dtg.successors dtg.size [dtg.init] [dtg.init]

end DomainTransitionGraph

structure DtgArc where
  var : ℕ
  pre : ℤ
  post : ℤ
  deriving DecidableEq, Repr

/-- The values of a variable. -/
def domain (size : ℕ) : List ℤ :=
  (List.range size).map Int.ofNat

namespace SasTask

variable (task : SasTask)

/-- Without a precondition there are arcs from every value other than `post`. -/
def addArc (var : ℕ) (preSpec post : ℤ) : List DtgArc :=
  if preSpec = -1 then
    ((domain (task.ranges.getD var 0)).filter (· ≠ post)).map fun pre =>
      { var := var, pre := pre, post := post }
  else [{ var := var, pre := preSpec, post := post }]

/-- The value that conditions require of a variable, -1 if they do not mention it. -/
def requiredValue (var : ℕ) (conditions : List Condition) : ℤ :=
  match conditions.find? fun condition => condition.var = var with
  | some condition => condition.val
  | none => -1

/-- -1 if the conditions do not mention the variable, `none` if they contradict each other on it. -/
def getEffectivePre (var : ℕ) (conditions effectConditions : List Condition) : Option ℤ :=
  effectConditions.foldlM
    (fun result condition =>
      if condition.var = var then
        if result = -1 then some condition.val
        else if condition.val ≠ result then none
        else some result
      else some result)
    (requiredValue var conditions)

def operatorArcs (op : SasOperator) : List DtgArc :=
  let conditions := op.getApplicabilityConditions
  op.prePost.flatMap fun effect =>
    match getEffectivePre effect.var conditions effect.cond with
    | some effectivePre => task.addArc effect.var effectivePre effect.post
    | none => []

def arcs : List DtgArc :=
  task.operators.flatMap task.operatorArcs ++
    task.axioms.flatMap (fun rule => task.addArc rule.effect.var (-1) rule.effect.val) ++
    task.compAxioms.flatMap fun rule =>
      task.addArc rule.effect (-1) 0 ++ task.addArc rule.effect (-1) 1

def arcsOf (var : ℕ) : List (ℤ × ℤ) :=
  (task.arcs.filter fun arc => arc.var = var).map fun arc => (arc.pre, arc.post)

def buildDtgs : List DomainTransitionGraph :=
  ((task.init.zip task.ranges).filter fun entry => 0 < entry.2).mapIdx fun var entry =>
    { init := entry.1, size := entry.2, arcs := task.arcsOf var }

end SasTask

/-! ## Renaming -/

inductive NewValue where
  | value (number : ℕ)
  | alwaysFalse
  | alwaysTrue
  deriving DecidableEq, Repr

/-- The exceptions of the module; a failed assertion is the last of them. -/
inductive Stop where
  | impossible
  | triviallySolvable
  | doesNothing
  | assertionFailed
  deriving DecidableEq, Repr

structure VarValueRenaming where
  newVarNos : List (Option ℕ)
  newValues : List (List NewValue)
  newSizes : List ℕ
  newVarCount : ℕ
  deriving DecidableEq, Repr

namespace VarValueRenaming

def empty : VarValueRenaming :=
  { newVarNos := [], newValues := [], newSizes := [], newVarCount := 0 }

def removedValues (dtg : DomainTransitionGraph) : List NewValue :=
  (domain dtg.size).map fun value => if value = dtg.init then .alwaysTrue else .alwaysFalse

def numberedValues (dtg : DomainTransitionGraph) : List NewValue :=
  (numberKept (· ∈ dtg.reachable) 0 (domain dtg.size)).map fun
    | some number => .value number
    | none => .alwaysFalse

/-- The assertions on the new domain hold for every graph within its values. -/
def registerVariable (mapping : VarValueRenaming) (dtg : DomainTransitionGraph) :
    VarValueRenaming :=
  if dtg.reachable.length = 1 then
    { mapping with
      newVarNos := mapping.newVarNos ++ [none]
      newValues := mapping.newValues ++ [removedValues dtg] }
  else
    { newVarNos := mapping.newVarNos ++ [some mapping.newVarCount]
      newValues := mapping.newValues ++ [numberedValues dtg]
      newSizes := mapping.newSizes ++ [dtg.reachable.length]
      newVarCount := mapping.newVarCount + 1 }

variable (mapping : VarValueRenaming)

def translatePair (fact : Condition) : Option ℕ × NewValue :=
  (mapping.newVarNos.getD fact.var none,
    (mapping.newValues.getD fact.var []).getD fact.val.toNat .alwaysFalse)

def convertPair (fact : Condition) : Except Stop (Option Condition) :=
  match mapping.translatePair fact with
  | (_, .alwaysFalse) => .error .impossible
  | (_, .alwaysTrue) => .ok none
  | (some newVar, .value newValue) => .ok (some { var := newVar, val := newValue })
  | (none, .value _) => .error .assertionFailed

def convertPairs : List Condition → Except Stop (List Condition)
  | [] => .ok []
  | fact :: facts => do
    let newFact ← mapping.convertPair fact
    let newFacts ← convertPairs facts
    return newFact.toList ++ newFacts

/-! ### Operators -/

/-- An effect condition requires another value than the applicability conditions. -/
def clash (newCond conditions : List Condition) : Bool :=
  newCond.any fun fact => conditions.any fun known =>
    known.var = fact.var && known.val ≠ fact.val

/-- `none` if the effect never changes a value.  `conditions` are the converted applicability
conditions of the operator. -/
def translatePrePost (conditions : List Condition) (effect : SasPrePost) :
    Except Stop (Option SasPrePost) :=
  let (newVar, newPost) := mapping.translatePair { var := effect.var, val := effect.post }
  let newPre :=
    if effect.pre = -1 then none
    else some (mapping.translatePair { var := effect.var, val := effect.pre }).2
  if newPost = .alwaysTrue then .ok none
  else if newPre = some .alwaysFalse then .error .assertionFailed
  else if newPre = some newPost then .ok none
  else
    match mapping.convertPairs effect.cond with
    | .error .impossible => .ok none
    | .error stop => .error stop
    | .ok newCond =>
      if clash newCond conditions then .ok none
      else
        match newVar, newPre, newPost with
        | some newVar, none, .value newPost =>
          .ok (some { var := newVar, pre := -1, post := newPost, cond := newCond })
        | some newVar, some (.value newPre), .value newPost =>
          .ok (some { var := newVar, pre := newPre, post := newPost, cond := newCond })
        | _, _, _ => .error .assertionFailed

/-- The entry is returned as it is; the code that translates its conditions is commented out. -/
def translateAssignEffect (_ : VarValueRenaming) (effect : SasAssignEffect) :
    Option SasAssignEffect :=
  some effect

def translatePrePosts (conditions : List Condition) :
    List SasPrePost → Except Stop (List SasPrePost)
  | [] => .ok []
  | effect :: effects => do
    let newEffect ← mapping.translatePrePost conditions effect
    let newEffects ← translatePrePosts conditions effects
    return newEffect.toList ++ newEffects

/-- `none` if the operator is never applicable or has no effect. -/
def translateOperator (op : SasOperator) : Except Stop (Option SasOperator) :=
  match mapping.convertPairs op.getApplicabilityConditions with
  | .error .impossible => .ok none
  | .error stop => .error stop
  | .ok conditions => do
    let newPrePost ← mapping.translatePrePosts conditions op.prePost
    let newAssignEffect := op.assignEffects.filterMap mapping.translateAssignEffect
    if newPrePost.isEmpty && newAssignEffect.isEmpty then return none
    let newPrevail := conditions.filter fun fact => newPrePost.all fun effect => effect.var ≠ fact.var
    return some (.make op.name newPrevail newPrePost newAssignEffect op.cost)

def applyToOperators : List SasOperator → Except Stop (List SasOperator)
  | [] => .ok []
  | op :: operators => do
    let newOp ← mapping.translateOperator op
    let newOperators ← applyToOperators operators
    return newOp.toList ++ newOperators

/-! ### Axioms -/

def applyToAxiom (rule : SasAxiom) : Except Stop SasAxiom := do
  let condition ← mapping.convertPairs rule.condition
  match mapping.translatePair rule.effect with
  | (_, .alwaysFalse) => .error .assertionFailed
  | (_, .alwaysTrue) => .error .doesNothing
  | (some newVar, .value newValue) =>
    return { condition := condition, effect := { var := newVar, val := newValue } }
  | (none, .value _) => .error .assertionFailed

def applyToAxioms : List SasAxiom → Except Stop (List SasAxiom)
  | [] => .ok []
  | rule :: rules =>
    match mapping.applyToAxiom rule with
    | .error .impossible => applyToAxioms rules
    | .error .doesNothing => applyToAxioms rules
    | .error stop => .error stop
    | .ok newRule => do
      let newRules ← applyToAxioms rules
      return newRule :: newRules

def applyToCompAxioms : List SasCompareAxiom → Except Stop (List SasCompareAxiom)
  | [] => .ok []
  | rule :: rules =>
    match mapping.newVarNos.getD rule.effect none with
    | none => .error .assertionFailed
    | some newVar => do
      let newRules ← applyToCompAxioms rules
      return { rule with effect := newVar } :: newRules

/-! ### The task -/

/-- A table by new variables; the assertion is that no entry is missing. -/
def fillTable {α : Type} (entries : List (ℕ × α)) : Except Stop (List α) :=
  match (placeAll mapping.newVarCount entries).mapM id with
  | some table => .ok table
  | none => .error .assertionFailed

def applyToVariables (axiomLayers : List ℤ) : Except Stop (List ℤ) :=
  mapping.fillTable ((mapping.newVarNos.zip axiomLayers).filterMap fun (newVar, layer) =>
    newVar.map fun newVar => (newVar, layer))

def applyToMutexes (mutexes : List (List Condition)) : List (List Condition) :=
  (mutexes.map fun facts => facts.filterMap fun fact =>
    match mapping.translatePair fact with
    | (some newVar, .value newValue) => some { var := newVar, val := newValue }
    | _ => none).filter fun facts => 2 ≤ facts.length

def applyToInit (init : List ℤ) : Except Stop (List ℤ) :=
  match mapping.convertPairs (init.mapIdx fun var value => { var := var, val := value }) with
  | .error _ => .error .assertionFailed
  | .ok pairs => mapping.fillTable (pairs.map fun pair => (pair.var, pair.val))

def applyToGoals (goals : List Condition) : Except Stop (List Condition) := do
  let newGoals ← mapping.convertPairs goals
  if newGoals.isEmpty then .error .triviallySolvable else return newGoals

/-- A constraint that is always false or always true fails an assertion. -/
def translateGlobalConstraint (constraint : Condition) : Except Stop Condition :=
  match mapping.translatePair constraint with
  | (some newVar, .value newValue) => .ok { var := newVar, val := newValue }
  | _ => .error .assertionFailed

def applyToTask (task : SasTask) : Except Stop SasTask := do
  let axiomLayers ← mapping.applyToVariables task.axiomLayers
  let init ← mapping.applyToInit task.init
  let goal ← mapping.applyToGoals task.goal
  let globalConstraint ← mapping.translateGlobalConstraint task.globalConstraint
  let operators ← mapping.applyToOperators task.operators
  let axioms ← mapping.applyToAxioms task.axioms
  let compAxioms ← mapping.applyToCompAxioms task.compAxioms
  return { task with
    ranges := mapping.newSizes
    axiomLayers := axiomLayers
    mutexes := mapping.applyToMutexes task.mutexes
    init := init
    goal := goal
    globalConstraint := globalConstraint
    operators := operators
    axioms := axioms
    compAxioms := compAxioms }

end VarValueRenaming

def buildRenaming (dtgs : List DomainTransitionGraph) : VarValueRenaming :=
  dtgs.foldl VarValueRenaming.registerVariable .empty

def SasTask.filterUnreachablePropositions (task : SasTask) : Except Stop SasTask :=
  (buildRenaming task.buildDtgs).applyToTask task

end CutPlan.Translate
