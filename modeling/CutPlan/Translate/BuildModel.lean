import CutPlan.Translate.RuleFiring

/-! # Computing the model

The rules are numbered and checked, and an index over the constants of their conditions tells which conditions
an atom may match.  A queue holds the facts and the derived atoms; every atom that is taken from it is
recorded by the rules it matches, and these enqueue what now follows.
-/

namespace CutPlan.Translate

open CutPlan.Lib

variable {Pred Var Obj : Type}

inductive RuleType where
  | join
  | product
  | project
  deriving DecidableEq, Repr

/-- A rule of the grounding program after it has been split. -/
structure TypedRule (Pred Var Obj : Type) where
  type : RuleType
  rule : DatalogRule Pred Var Obj
  deriving DecidableEq, Repr

section Conversion

variable [DecidableEq Var] [DecidableEq Obj]

def variableArgs (atom : BuildAtom Pred Var Obj) : List (BuildArgument Var Obj) :=
  atom.args.filter BuildArgument.isVariable

namespace JoinRule

def ofConditions (effect left right : BuildAtom Pred Var Obj) : JoinRule Pred Var Obj :=
  ⟨effect, left, right, .empty, .empty⟩

/-- The conditions share a variable, and what only one of them has is kept in the effect. -/
def validate (rule : JoinRule Pred Var Obj) : Bool :=
  let leftVars := variableArgs rule.left
  let rightVars := variableArgs rule.right
  let effVars := variableArgs rule.effect
  leftVars.any (· ∈ rightVars) &&
    (leftVars ++ rightVars).all (fun argument => argument ∈ leftVars ∧ argument ∈ rightVars ∨ argument ∈ effVars) &&
      effVars.all fun argument => argument ∈ leftVars ∨ argument ∈ rightVars

end JoinRule

namespace ProductRule

def ofConditions (effect : BuildAtom Pred Var Obj)
    (conditions : List (BuildAtom Pred Var Obj)) : ProductRule Pred Var Obj :=
  ⟨effect, conditions, conditions.map fun _ => [], conditions.length⟩

/-- The conditions have no common variables, and the effect has all variables. -/
def validate (rule : ProductRule Pred Var Obj) : Bool :=
  let condVars := rule.conditions.map fun condition => (variableArgs condition).dedup
  let allCondVars := condVars.flatten.dedup
  let effVars := (variableArgs rule.effect).dedup
  decide (2 ≤ rule.conditions.length) && decide (allCondVars.length = effVars.length) &&
    decide (allCondVars.length = (condVars.map List.length).sum)

end ProductRule

/-- No rule when an assertion fails. -/
def BuildRule.ofType? (effect : BuildAtom Pred Var Obj)
    (conditions : List (BuildAtom Pred Var Obj)) : RuleType → Option (BuildRule Pred Var Obj)
  | .join =>
    match conditions with
    | [left, right] =>
      let rule := JoinRule.ofConditions effect left right
      if rule.validate then some (.join rule) else none
    | _ => none
  | .product =>
    let rule := ProductRule.ofConditions effect conditions
    if rule.validate then some (.product rule) else none
  | .project =>
    match conditions with
    | [condition] => some (.project ⟨effect, condition⟩)
    | _ => none

def convertRule (typed : TypedRule Pred Var Obj) : Option (BuildRule Pred Var Obj) :=
  let (newEffect, newConditions) := variablesToNumbers typed.rule.effect typed.rule.conditions
  BuildRule.ofType? newEffect newConditions typed.type

def convertRules (rules : List (TypedRule Pred Var Obj)) :
    Option (List (BuildRule Pred Var Obj)) :=
  rules.mapM convertRule

end Conversion

/-! ## The index of the conditions -/

mutual
/-- Values for all atoms, and values for those with a certain argument at one place. -/
inductive Generator (Var Obj Value : Type) where
  | leaf (stored : List Value)
  | node (index : ℕ) (stored : List Value) (branches : Branches Var Obj Value)
      (next : Generator Var Obj Value)

inductive Branches (Var Obj Value : Type) where
  | nil
  | cons (argument : BuildArgument Var Obj) (generator : Generator Var Obj Value)
      (rest : Branches Var Obj Value)
end

/-- The places of constants in a condition. -/
abbrev ConstantArguments (Var Obj : Type) := List (ℕ × BuildArgument Var Obj)

section Generators

variable {Value : Type} [DecidableEq Var] [DecidableEq Obj]

mutual
def Generator.generate (args : List (BuildArgument Var Obj)) :
    Generator Var Obj Value → List Value
  | .leaf stored => stored
  | .node index stored branches next => stored ++ branches.generate args args[index]? ++ next.generate args

def Branches.generate (args : List (BuildArgument Var Obj)) (atIndex : Option (BuildArgument Var Obj)) :
    Branches Var Obj Value → List Value
  | .nil => []
  | .cons argument generator rest =>
    if atIndex = some argument then generator.generate args else rest.generate args atIndex
end

/-- A new branch with a value. -/
def Generator.path (value : Value) : ConstantArguments Var Obj → Generator Var Obj Value
  | [] => .leaf [value]
  | (index, argument) :: rest => .node index [] (.cons argument (path value rest) .nil) (.leaf [])

def Generator.insertLeaf (stored : List Value) (value : Value) :
    ConstantArguments Var Obj → Generator Var Obj Value
  | [] => .leaf (stored ++ [value])
  | (index, argument) :: rest => .node index stored (.cons argument (path value rest) .nil) (.leaf [])

mutual
def Generator.insert (args : ConstantArguments Var Obj) (value : Value) :
    Generator Var Obj Value → Generator Var Obj Value
  | .leaf stored => Generator.insertLeaf stored value args
  | .node index stored branches next =>
    match args with
    | [] => .node index (stored ++ [value]) branches next
    | (argIndex, argument) :: rest =>
      if index < argIndex then .node index stored branches (next.insert ((argIndex, argument) :: rest) value)
      else if argIndex < index then
        .node argIndex [] (.cons argument (Generator.insertLeaf [] value rest) .nil) (.node index stored branches next)
      else .node index stored (branches.insert argument rest value) next

def Branches.insert (argument : BuildArgument Var Obj) (args : ConstantArguments Var Obj) (value : Value) :
    Branches Var Obj Value → Branches Var Obj Value
  | .nil => .cons argument (Generator.insertLeaf [] value args) .nil
  | .cons known generator rest =>
    if known = argument then .cons known (generator.insert args value) rest
    else .cons known generator (rest.insert argument args value)
end

def constantArguments (condition : BuildAtom Pred Var Obj) : ConstantArguments Var Obj :=
  condition.args.zipIdx.filterMap fun (argument, index) =>
    if argument.constant?.isSome then some (index, argument) else none

/-- The rules are known by their places in the list. -/
abbrev Trigger := ℕ × ℕ

variable [DecidableEq Pred]

abbrev Unifier (Pred Var Obj : Type) := Dictionary Pred (Generator Var Obj Trigger)

def insertCondition (unifier : Unifier Pred Var Obj) (condition : BuildAtom Pred Var Obj)
    (trigger : Trigger) : Unifier Pred Var Obj :=
  let root := (unifier.get? condition.predicate).getD (.leaf [])
  unifier.insert condition.predicate (root.insert (constantArguments condition) trigger)

/-- All conditions with the rules and the places they stand at. -/
def triggers (rules : List (BuildRule Pred Var Obj)) :
    List (BuildAtom Pred Var Obj × Trigger) :=
  rules.zipIdx.flatMap fun (rule, ruleIndex) =>
    rule.conditions.zipIdx.map fun (condition, condIndex) => (condition, ruleIndex, condIndex)

def buildUnifier (rules : List (BuildRule Pred Var Obj)) : Unifier Pred Var Obj :=
  (triggers rules).foldl (fun unifier entry => insertCondition unifier entry.1 entry.2) .empty

def unify (unifier : Unifier Pred Var Obj) (atom : BuildAtom Pred Var Obj) : List Trigger :=
  match unifier.get? atom.predicate with
  | some generator => generator.generate atom.args
  | none => []

end Generators

/-! ## The queue -/

structure Queue (Pred Var Obj : Type) where
  queue : List (BuildAtom Pred Var Obj)
  queuePos : ℕ
  enqueued : List (BuildAtom Pred Var Obj)
  numPushes : ℕ
  deriving Repr

namespace Queue

variable [DecidableEq Pred] [DecidableEq Var] [DecidableEq Obj]

def ofAtoms (atoms : List (BuildAtom Pred Var Obj)) : Queue Pred Var Obj :=
  ⟨atoms, 0, atoms.dedup, atoms.length⟩

def push (queue : Queue Pred Var Obj) (atom : BuildAtom Pred Var Obj) :
    Queue Pred Var Obj :=
  if atom ∈ queue.enqueued then { queue with numPushes := queue.numPushes + 1 }
  else { queue with
    queue := queue.queue ++ [atom]
    enqueued := atom :: queue.enqueued
    numPushes := queue.numPushes + 1 }

def pushAll (queue : Queue Pred Var Obj) (atoms : List (BuildAtom Pred Var Obj)) :
    Queue Pred Var Obj :=
  atoms.foldl push queue

end Queue

/-! ## The main loop -/

structure ModelState (Pred Var Obj : Type) where
  rules : List (BuildRule Pred Var Obj)
  queue : Queue Pred Var Obj

section Loop

variable [DecidableEq Pred] [DecidableEq Var] [DecidableEq Obj]

/-- One condition that the atom matches. -/
def processMatch (newAtom : BuildAtom Pred Var Obj) (state : ModelState Pred Var Obj)
    (trigger : Trigger) : ModelState Pred Var Obj :=
  match state.rules[trigger.1]? with
  | none => state
  | some rule =>
    let rule := rule.updateIndex newAtom trigger.2
    ⟨state.rules.set trigger.1 rule, state.queue.pushAll (rule.fire newAtom trigger.2)⟩

def processAtom (unifier : Unifier Pred Var Obj) (newAtom : BuildAtom Pred Var Obj)
    (state : ModelState Pred Var Obj) : ModelState Pred Var Obj :=
  (unify unifier newAtom).foldl (processMatch newAtom)
    { state with queue := { state.queue with queuePos := state.queue.queuePos + 1 } }

/-- The loop may run as often as the fuel says. -/
def modelLoop (unifier : Unifier Pred Var Obj) :
    ℕ → ModelState Pred Var Obj → Option (List (BuildAtom Pred Var Obj))
  | fuel, state =>
    match state.queue.queue[state.queue.queuePos]? with
    | none => some state.queue.queue
    | some nextAtom =>
      match fuel with
      | 0 => none
      | fuel + 1 => modelLoop unifier fuel (processAtom unifier nextAtom state)

def factAtom (fact : Atom Pred Obj) : BuildAtom Pred Var Obj :=
  ⟨fact.predicate, fact.args.map fun object => .term (.object object)⟩

/-- Facts are sorted by the way they are printed. -/
def sortFactAtoms (str : Atom Pred Obj → String) (facts : List (Atom Pred Obj)) :
    List (Atom Pred Obj) :=
  facts.mergeSort fun first second => decide (str first ≤ str second)

/-- Nothing is returned when a rule fails its assertions, or when the fuel does not suffice. -/
def computeModel (str : Atom Pred Obj → String) (fuel : ℕ) (facts : List (Atom Pred Obj))
    (rules : List (TypedRule Pred Var Obj)) : Option (List (BuildAtom Pred Var Obj)) := do
  let rules ← convertRules rules
  modelLoop (buildUnifier rules) fuel ⟨rules, .ofAtoms ((sortFactAtoms str facts).map factAtom)⟩

end Loop

end CutPlan.Translate
