import CutPlan.Lib.LogicProgram
import CutPlan.Lib.Worklist
import CutPlan.Sas.Arithmetic
import Mathlib.Data.List.Sort

/-! # Processing of propositional axioms

`handle_axioms`: which axiom literals are needed, the initial values of the derived atoms, the
simplified and negated axioms, and their layers.  Comparisons are atoms that no axiom derives.
Dictionaries and sets are iterated in the order in which they are filled, and `hash` is the hash value
by which conditions are sorted.
-/

namespace CutPlan.Translate

open CutPlan.Lib CutPlan.Sas

variable {Atom : Type} [DecidableEq Atom]

structure PropositionalAxiom (Atom : Type) where
  name : String
  condition : List (Literal Atom)
  effect : Literal Atom
  deriving DecidableEq, Repr

structure FunctionAssignment where
  fluent : ℕ
  symbol : FOperator
  expression : ℕ
  deriving DecidableEq, Repr

/-- Each effect has a condition. -/
structure PropositionalAction (Atom : Type) where
  name : String
  precondition : List (Literal Atom)
  addEffects : List (List (Literal Atom) × Atom)
  delEffects : List (List (Literal Atom) × Atom)
  assignEffects : List (List (Literal Atom) × FunctionAssignment)
  deriving DecidableEq, Repr

namespace AxiomRules

/-! ## Necessary literals -/

def getAxiomsByAtom (axioms : List (PropositionalAxiom Atom)) (atom : Atom) :
    List (PropositionalAxiom Atom) :=
  axioms.filter fun rule => rule.effect.atom = atom

def isAxiomLiteral (axioms : List (PropositionalAxiom Atom)) (literal : Literal Atom) : Bool :=
  axioms.any fun rule => rule.effect.atom = literal.atom

def registerLiterals (axioms : List (PropositionalAxiom Atom)) (literals : List (Literal Atom))
    (negated : Bool) : List (Literal Atom) :=
  (literals.filter (isAxiomLiteral axioms)).map fun literal =>
    if negated then literal.negate else literal

/-- The conditions of numeric effects are not registered. -/
def registerAction (axioms : List (PropositionalAxiom Atom)) (op : PropositionalAction Atom) :
    List (Literal Atom) :=
  registerLiterals axioms op.precondition false ++
    op.addEffects.flatMap (fun effect => registerLiterals axioms effect.1 false) ++
    op.delEffects.flatMap (fun effect => registerLiterals axioms effect.1 true)

def registerBodies (axioms : List (PropositionalAxiom Atom)) (literal : Literal Atom) :
    List (Literal Atom) :=
  (getAxiomsByAtom axioms literal.atom).flatMap fun rule =>
    registerLiterals axioms rule.condition literal.negated

/-- Every literal enters the queue once, so the loop ends within twice the number of axioms. -/
def computeNecessaryAxiomLiterals (axioms : List (PropositionalAxiom Atom))
    (operators : List (PropositionalAction Atom)) (goalList : List (Literal Atom))
    (globalConstraint : Literal Atom) : List (Literal Atom) :=
  let queue := (registerLiterals axioms goalList false ++
    registerLiterals axioms [globalConstraint] false ++
    operators.flatMap (registerAction axioms)).dedup
  explore (registerBodies axioms) (2 * axioms.length) queue queue

/-- The derived atoms that are initially true: those needed only negatively. -/
def getAxiomInit (axioms : List (PropositionalAxiom Atom)) (necessaryLiterals : List (Literal Atom)) :
    List Atom :=
  (axioms.map fun rule => rule.effect.atom).dedup.filter fun atom =>
    { atom := atom, negated := false } ∉ necessaryLiterals ∧
      { atom := atom, negated := true } ∈ necessaryLiterals

/-! ## Simplification -/

variable (hash : Literal Atom → ℤ)

/-- Only neighbours are compared. -/
def removeDuplicates : List (Literal Atom) → List (Literal Atom)
  | [] => []
  | [literal] => [literal]
  | first :: second :: literals =>
    if second = first then removeDuplicates (second :: literals)
    else first :: removeDuplicates (second :: literals)

def sortCondition (rule : PropositionalAxiom Atom) : PropositionalAxiom Atom :=
  { rule with
    condition := removeDuplicates
      (rule.condition.mergeSort fun first second => hash first ≤ hash second) }

/-- The axioms, by their positions, that have the literal in their condition. -/
def axiomsByLiteral (axioms : List (PropositionalAxiom Atom)) (literal : Literal Atom) : List ℕ :=
  (axioms.zipIdx.filter fun entry => literal ∈ entry.1.condition).map Prod.snd

/-- The positions to skip, or else an axiom with an empty condition.  The intersection is computed in
place: it replaces the set of the first literal. -/
def findDominated : List (PropositionalAxiom Atom × ℕ) → (Literal Atom → List ℕ) → List ℕ →
    Except (PropositionalAxiom Atom) (List ℕ)
  | [], _, axiomsToSkip => .ok axiomsToSkip
  | (rule, id) :: rules, axiomsByLiteral, axiomsToSkip =>
    if id ∈ axiomsToSkip then findDominated rules axiomsByLiteral axiomsToSkip
    else
      match rule.condition with
      | [] => .error rule
      | first :: literals =>
        let dominatedAxioms := literals.foldl
          (fun dominated literal => dominated.filter (· ∈ axiomsByLiteral literal))
          (axiomsByLiteral first)
        findDominated rules (Function.update axiomsByLiteral first dominatedAxioms)
          (axiomsToSkip ++ dominatedAxioms.filter (· ≠ id))

def simplify (axioms : List (PropositionalAxiom Atom)) : List (PropositionalAxiom Atom) :=
  let axioms := axioms.map (sortCondition hash)
  match findDominated axioms.zipIdx (axiomsByLiteral axioms) [] with
  | .error rule => [rule]
  | .ok axiomsToSkip => (axioms.zipIdx.filter fun entry => entry.2 ∉ axiomsToSkip).map Prod.fst

/-! ## Negation -/

def appendCondition (literal : Literal Atom) (rule : PropositionalAxiom Atom) :
    PropositionalAxiom Atom :=
  { rule with condition := rule.condition ++ [literal] }

/-- `none` if an axiom has an empty condition. -/
def negateBodies : List (PropositionalAxiom Atom) → List (PropositionalAxiom Atom) →
    Option (List (PropositionalAxiom Atom))
  | [], result => some result
  | rule :: rules, result =>
    match rule.condition with
    | [] => none
    | [literal] => negateBodies rules (result.map (appendCondition literal.negate))
    | condition => negateBodies rules (condition.flatMap fun literal =>
        result.map (appendCondition literal.negate))

def negate : List (PropositionalAxiom Atom) → List (PropositionalAxiom Atom)
  | [] => []
  | rule :: rules =>
    match negateBodies (rule :: rules)
        [{ name := rule.name, condition := [], effect := rule.effect.negate }] with
    | none => []
    | some result => simplify hash result

/-- The axioms of a necessary literal have been simplified in place. -/
def computeNegativeAxioms (axioms : List (PropositionalAxiom Atom))
    (necessaryLiterals : List (Literal Atom)) : List (PropositionalAxiom Atom) :=
  necessaryLiterals.flatMap fun literal =>
    let simplified := simplify hash (getAxiomsByAtom axioms literal.atom)
    if literal.negated then negate hash simplified else simplified

/-! ## Layers -/

/-- The axiom changes the initial value of its atom. -/
def changesInit (axiomInit : List Atom) (rule : PropositionalAxiom Atom) : Bool :=
  (!rule.effect.negated) ≠ decide (rule.effect.atom ∈ axiomInit)

/-- A condition that asks for the initial value of its atom has the bonus 1. -/
def bonus (axiomInit : List Atom) (condition : Literal Atom) : ℕ :=
  if (!condition.negated) = decide (condition.atom ∈ axiomInit) then 1 else 0

def dependsOn (axioms : List (PropositionalAxiom Atom)) (axiomInit : List Atom) (atom : Atom) :
    List (Atom × ℕ) :=
  ((axioms.filter fun rule => changesInit axiomInit rule && rule.effect.atom = atom).flatMap
    fun rule => rule.condition.map fun condition =>
      (condition.atom, bonus axiomInit condition)).dedup

def layeredAtoms (axioms : List (PropositionalAxiom Atom)) (axiomInit : List Atom) : List Atom :=
  ((axioms.filter (changesInit axiomInit)).map fun rule => rule.effect.atom).dedup

def noAxiom : ℤ := -1
def unknownLayer : ℤ := -2
def firstMarker : ℤ := -3

/-- The level of an atom and the table of layers; `none` is the failed assertion that there is no
negative cycle. -/
def findLevel (edges : Atom → List (Atom × ℕ)) : ℕ → Atom → ℤ → (Atom → ℤ) → Option (ℕ × (Atom → ℤ))
  | fuel, atom, marker, layers =>
    if layers atom = noAxiom then some (0, layers)
    else if layers atom = marker then some (0, layers)
    else if layers atom ≤ firstMarker then none
    else if layers atom = unknownLayer then
      match fuel with
      | 0 => none
      | fuel + 1 => do
        let (layer, layers) ← (edges atom).foldlM
          (fun (layer, layers) edge => do
            let (level, layers) ← findLevel edges fuel edge.1 (marker - edge.2) layers
            return (max layer (level + edge.2), layers))
          (0, Function.update layers atom marker)
        return (layer, Function.update layers atom (layer : ℤ))
    else some ((layers atom).toNat, layers)

/-- The recursion never goes deeper than there are atoms. -/
def computeAxiomLayers (axioms : List (PropositionalAxiom Atom)) (axiomInit : List Atom) :
    Option (Atom → Option ℕ) := do
  let atoms := layeredAtoms axioms axiomInit
  let layers ← atoms.foldlM
    (fun layers atom => do
      let (_, layers) ← findLevel (dependsOn axioms axiomInit) atoms.length atom firstMarker layers
      return layers)
    (fun atom => if atom ∈ atoms then unknownLayer else noAxiom)
  return fun atom => if 0 ≤ layers atom then some (layers atom).toNat else none

/-! ## The result -/

structure Result (Atom : Type) where
  axioms : List (PropositionalAxiom Atom)
  axiomInit : List Atom
  axiomLayers : Atom → Option ℕ

def handleAxioms (operators : List (PropositionalAction Atom))
    (axioms : List (PropositionalAxiom Atom)) (goalList : List (Literal Atom))
    (globalConstraint : Literal Atom) : Option (Result Atom) := do
  let axiomLiterals := computeNecessaryAxiomLiterals axioms operators goalList globalConstraint
  let axiomInit := getAxiomInit axioms axiomLiterals
  let newAxioms := computeNegativeAxioms hash axioms axiomLiterals
  let axiomLayers ← computeAxiomLayers newAxioms axiomInit
  return { axioms := newAxioms, axiomInit := axiomInit, axiomLayers := axiomLayers }

end AxiomRules

end CutPlan.Translate
