import CutPlan.Lib.Datalog
import CutPlan.Lib.Dictionary
import Mathlib

/-! # The rules that build the model

Rules for the evaluation of the grounding program.  A variable of the effect is replaced by its position there;
a condition is matched by an atom when an atom taken from the queue fits it, and each rule remembers
the atoms that matched its conditions.
-/

namespace CutPlan.Translate

open CutPlan.Lib

/-- A number stands for the argument of the effect at that position. -/
inductive BuildArgument (Var Obj : Type) where
  | position (index : ℕ)
  | term (term : Term Var Obj)
  deriving DecidableEq, Repr

variable {Pred Var Obj : Type}

abbrev SymbolicAtom (Pred Var Obj : Type) := Atom Pred (Term Var Obj)

abbrev BuildAtom (Pred Var Obj : Type) := Atom Pred (BuildArgument Var Obj)

namespace BuildArgument

def position? : BuildArgument Var Obj → Option ℕ
  | position index => some index
  | term _ => none

def isVariable : BuildArgument Var Obj → Bool
  | position _ | term (.var _) => true
  | term (.object _) => false

/-- The objects are the constants. -/
def constant? : BuildArgument Var Obj → Option Obj
  | term (.object known) => some known
  | position _ | term (.var _) => none

end BuildArgument

section Numbering

variable [DecidableEq Var]

/-- Where the variables occur in the effect; a later occurrence replaces an earlier one. -/
def renameMap (effect : SymbolicAtom Pred Var Obj) : Dictionary Var ℕ :=
  effect.args.zipIdx.foldl
    (fun map (argument, index) =>
      match argument with
      | .var name => map.insert name index
      | .object _ => map) .empty

def numberEffectArgument : Term Var Obj × ℕ → BuildArgument Var Obj
  | (.var _, index) => .position index
  | (.object known, _) => .term (.object known)

def numberArgument (map : Dictionary Var ℕ) : Term Var Obj → BuildArgument Var Obj
  | .var name =>
    match map.get? name with
    | some index => .position index
    | none => .term (.var name)
  | .object known => .term (.object known)

/-- Variables that do not occur in the effect stay as they are. -/
def variablesToNumbers (effect : SymbolicAtom Pred Var Obj)
    (conditions : List (SymbolicAtom Pred Var Obj)) :
    BuildAtom Pred Var Obj × List (BuildAtom Pred Var Obj) :=
  (⟨effect.predicate, effect.args.zipIdx.map numberEffectArgument⟩,
    conditions.map fun condition => ⟨condition.predicate, condition.args.map (numberArgument (renameMap effect))⟩)

end Numbering

/-! ## What a match binds -/

abbrev Bindings (Var Obj : Type) := List (ℕ × BuildArgument Var Obj)

def getBindings (atom condition : BuildAtom Pred Var Obj) : Bindings Var Obj :=
  (condition.args.zip atom.args).filterMap fun (argument, object) =>
    argument.position?.map fun index => (index, object)

/-- Writes the bound objects to their positions, one after the other. -/
def bindAll (effectArgs : List (BuildArgument Var Obj)) (bindings : Bindings Var Obj) :
    List (BuildArgument Var Obj) :=
  bindings.foldl (fun effectArgs binding => effectArgs.set binding.1 binding.2) effectArgs

/-- The list of arguments is shared by all rounds, each of which enqueues a copy. -/
def bindEach (effectArgs : List (BuildArgument Var Obj)) :
    List (Bindings Var Obj) → List (List (BuildArgument Var Obj))
  | [] => []
  | bindings :: rest =>
    let effectArgs := bindAll effectArgs bindings
    effectArgs :: bindEach effectArgs rest

def prepareEffect (effect condition newAtom : BuildAtom Pred Var Obj) :
    List (BuildArgument Var Obj) :=
  bindAll effect.args (getBindings newAtom condition)

/-! ## The three types of rules -/

/-- The values of the variables that both conditions have. -/
abbrev JoinKey (Var Obj : Type) := List (Option (BuildArgument Var Obj))

abbrev KeyIndex (Pred Var Obj : Type) :=
  Dictionary (JoinKey Var Obj) (List (BuildAtom Pred Var Obj))

structure JoinRule (Pred Var Obj : Type) where
  effect : BuildAtom Pred Var Obj
  left : BuildAtom Pred Var Obj
  right : BuildAtom Pred Var Obj
  atomsByKey : KeyIndex Pred Var Obj × KeyIndex Pred Var Obj

structure ProductRule (Pred Var Obj : Type) where
  effect : BuildAtom Pred Var Obj
  conditions : List (BuildAtom Pred Var Obj)
  atomsByIndex : List (List (BuildAtom Pred Var Obj))
  emptyAtomListNo : ℕ

structure ProjectRule (Pred Var Obj : Type) where
  effect : BuildAtom Pred Var Obj
  condition : BuildAtom Pred Var Obj

def positionsOf (atom : BuildAtom Pred Var Obj) : List ℕ :=
  atom.args.filterMap BuildArgument.position?

namespace JoinRule

variable [DecidableEq Var] [DecidableEq Obj] (rule : JoinRule Pred Var Obj)

def commonVars : List ℕ :=
  ((positionsOf rule.left).filter (· ∈ positionsOf rule.right)).dedup.mergeSort (· ≤ ·)

/-- The first condition has the index zero. -/
def condition (condIndex : ℕ) : BuildAtom Pred Var Obj :=
  if condIndex = 0 then rule.left else rule.right

def commonVarPositions (condIndex : ℕ) : List ℕ :=
  rule.commonVars.map fun index => (rule.condition condIndex).args.idxOf (.position index)

def key (newAtom : BuildAtom Pred Var Obj) (condIndex : ℕ) : JoinKey Var Obj :=
  (rule.commonVarPositions condIndex).map fun position => newAtom.args[position]?

def updateIndex (newAtom : BuildAtom Pred Var Obj) (condIndex : ℕ) :
    JoinRule Pred Var Obj :=
  let key := rule.key newAtom condIndex
  let add := fun (index : KeyIndex Pred Var Obj) =>
    index.insert key ((index.get? key).getD [] ++ [newAtom])
  { rule with atomsByKey :=
      if condIndex = 0 then (add rule.atomsByKey.1, rule.atomsByKey.2)
      else (rule.atomsByKey.1, add rule.atomsByKey.2) }

/-- The atoms for the other condition with the same key. -/
def partners (newAtom : BuildAtom Pred Var Obj) (condIndex : ℕ) :
    List (BuildAtom Pred Var Obj) :=
  let index := if condIndex = 0 then rule.atomsByKey.2 else rule.atomsByKey.1
  (index.get? (rule.key newAtom condIndex)).getD []

def fire (newAtom : BuildAtom Pred Var Obj) (condIndex : ℕ) :
    List (BuildAtom Pred Var Obj) :=
  let otherCond := rule.condition (1 - condIndex)
  let effectArgs := prepareEffect rule.effect (rule.condition condIndex) newAtom
  (bindEach effectArgs ((rule.partners newAtom condIndex).map fun atom => getBindings atom otherCond)).map
    fun args => ⟨rule.effect.predicate, args⟩

end JoinRule

/-- All ways to choose one element of each list; the last choice varies first. -/
def cartesian {α : Type*} : List (List α) → List (List α)
  | [] => [[]]
  | choices :: rest => choices.flatMap fun choice => (cartesian rest).map (choice :: ·)

namespace ProductRule

variable (rule : ProductRule Pred Var Obj)

def updateIndex (newAtom : BuildAtom Pred Var Obj) (condIndex : ℕ) :
    ProductRule Pred Var Obj :=
  let atomList := rule.atomsByIndex.getD condIndex []
  { rule with
    atomsByIndex := rule.atomsByIndex.set condIndex (atomList ++ [newAtom])
    emptyAtomListNo := if atomList = [] then rule.emptyAtomListNo - 1 else rule.emptyAtomListNo }

/-- What the atoms for the other conditions bind. -/
def bindingsFactors (condIndex : ℕ) : List (List (Bindings Var Obj)) :=
  (((rule.conditions.zip rule.atomsByIndex).zipIdx.filter fun entry => entry.2 ≠ condIndex).map
    fun entry => entry.1.2.map fun atom => getBindings atom entry.1.1)

def fire (newAtom : BuildAtom Pred Var Obj) (condIndex : ℕ) :
    List (BuildAtom Pred Var Obj) :=
  match rule.conditions[condIndex]? with
  | none => []
  | some condition =>
    if rule.emptyAtomListNo ≠ 0 then []
    else
      let effArgs := prepareEffect rule.effect condition newAtom
      (bindEach effArgs ((cartesian (rule.bindingsFactors condIndex)).map List.flatten)).map
        fun args => ⟨rule.effect.predicate, args⟩

end ProductRule

def ProjectRule.fire (rule : ProjectRule Pred Var Obj)
    (newAtom : BuildAtom Pred Var Obj) : List (BuildAtom Pred Var Obj) :=
  [⟨rule.effect.predicate, prepareEffect rule.effect rule.condition newAtom⟩]

inductive BuildRule (Pred Var Obj : Type) where
  | join (rule : JoinRule Pred Var Obj)
  | product (rule : ProductRule Pred Var Obj)
  | project (rule : ProjectRule Pred Var Obj)

namespace BuildRule

variable [DecidableEq Var] [DecidableEq Obj]

def effect : BuildRule Pred Var Obj → BuildAtom Pred Var Obj
  | join rule => rule.effect
  | product rule => rule.effect
  | project rule => rule.effect

def conditions : BuildRule Pred Var Obj → List (BuildAtom Pred Var Obj)
  | join rule => [rule.left, rule.right]
  | product rule => rule.conditions
  | project rule => [rule.condition]

def updateIndex (newAtom : BuildAtom Pred Var Obj) (condIndex : ℕ) :
    BuildRule Pred Var Obj → BuildRule Pred Var Obj
  | join rule => join (rule.updateIndex newAtom condIndex)
  | product rule => product (rule.updateIndex newAtom condIndex)
  | project rule => project rule

/-- The atoms that are enqueued. -/
def fire (newAtom : BuildAtom Pred Var Obj) (condIndex : ℕ) :
    BuildRule Pred Var Obj → List (BuildAtom Pred Var Obj)
  | join rule => rule.fire newAtom condIndex
  | product rule => rule.fire newAtom condIndex
  | project rule => rule.fire newAtom

end BuildRule

end CutPlan.Translate
