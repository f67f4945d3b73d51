import CutPlan.Lib.LogicProgram
import CutPlan.Translate.SasOperator

/-! # Logic axioms

How `AxiomEvaluator` propagates literals through the rules of the axioms.  A counter in every rule
says how many of its conditions are still open; a rule without open conditions writes its effect.
After each layer the variables that kept their default value are literals too.  The values are those
that the packer reads and writes.
-/

namespace CutPlan.Search

open CutPlan.Lib CutPlan.Sas

structure PropositionalAxiom where
  affectedVariable : ℕ
  effectVal : ℤ
  conditions : List Condition
  deriving DecidableEq, Repr

namespace PropositionalAxiom

def effect (rule : PropositionalAxiom) : Condition := ⟨rule.affectedVariable, rule.effectVal⟩

end PropositionalAxiom

/-- The globals that the evaluator reads. -/
structure LogicTask where
  axiomLayers : List ℤ
  lastArithmeticAxiomLayer : ℤ
  hasCompAxioms : Bool
  defaultAxiomValues : List ℤ
  logicAxioms : List PropositionalAxiom
  deriving DecidableEq, Repr

namespace LogicTask

variable (task : LogicTask)

def axiomLayer (var : ℕ) : ℤ := task.axiomLayers.getD var (-1)

def defaultValue (var : ℕ) : ℤ := task.defaultAxiomValues.getD var 0

/-! ## The constructor -/

/-- The smallest layer of a derived variable. -/
def firstAxiomLayer : ℤ :=
  task.axiomLayers.foldl (fun first layer =>
    if layer = -1 then first
    else if layer < first ∨ first = -1 then layer
    else first) (-1)

/-- Comparisons have the first layer for themselves. -/
def comparisonAxiomLayer : ℤ :=
  if 0 ≤ task.firstAxiomLayer ∧ task.hasCompAxioms then task.firstAxiomLayer else -1

def lastLayer : ℤ := task.axiomLayers.foldl max (-1)

/-- `condition_of`, with a rule as often as the literal is among its conditions. -/
def conditionOf (literal : Condition) : List ℕ :=
  task.logicAxioms.zipIdx.flatMap fun rule =>
    (rule.1.conditions.filter (· = literal)).map fun _ => rule.2

/-- The variables whose negation by failure is known after a layer. -/
def nbfInfo (layerNo : ℤ) : List ℕ :=
  (List.range task.axiomLayers.length).filter fun var =>
    task.axiomLayer var ≠ -1 ∧ task.axiomLayer var ≠ task.lastLayer ∧ task.axiomLayer var = layerNo

/-! ## Evaluation -/

structure AxiomState where
  buffer : ℕ → ℤ
  queue : List Condition
  unsatisfiedConditions : ℕ → ℤ

/-- One variable of the first loop.  No layer is above the last one. -/
def startVariable (state : AxiomState) (var : ℕ) : AxiomState :=
  if task.axiomLayer var = -1 then
    { state with queue := state.queue ++ [⟨var, state.buffer var⟩] }
  else if task.axiomLayer var ≤ task.lastArithmeticAxiomLayer then
    -- an error message and an assertion
    state
  else if task.axiomLayer var = task.comparisonAxiomLayer then
    { state with queue := state.queue ++ [⟨var, state.buffer var⟩] }
  else
    { state with buffer := Function.update state.buffer var (task.defaultValue var) }

def AxiomState.trigger (state : AxiomState) (rule : PropositionalAxiom) : AxiomState :=
  if state.buffer rule.affectedVariable ≠ rule.effectVal then
    { state with
      buffer := Function.update state.buffer rule.affectedVariable rule.effectVal
      queue := state.queue ++ [rule.effect] }
  else state

/-- One rule of the second loop. -/
def startRule (state : AxiomState) (item : PropositionalAxiom × ℕ) : AxiomState :=
  let state :=
    { state with
      unsatisfiedConditions :=
        Function.update state.unsatisfiedConditions item.2 item.1.conditions.length }
  if item.1.conditions.length = 0 then state.trigger item.1 else state

def start (buffer : ℕ → ℤ) : AxiomState :=
  task.logicAxioms.zipIdx.foldl startRule
    ((List.range task.axiomLayers.length).foldl task.startVariable
      { buffer := buffer, queue := [], unsatisfiedConditions := fun _ => 0 })

/-- One more condition of a rule is satisfied. -/
def satisfy (state : AxiomState) (index : ℕ) : AxiomState :=
  let state :=
    { state with
      unsatisfiedConditions := Function.update state.unsatisfiedConditions index
        (state.unsatisfiedConditions index - 1) }
  match task.logicAxioms[index]? with
  | some rule => if state.unsatisfiedConditions index = 0 then state.trigger rule else state
  | none => state

/-- The loop that empties the queue, in an order that `pick` decides. -/
def applyHornRules (pick : AxiomState → ℕ) : ℕ → AxiomState → Option AxiomState
  | fuel, state =>
    match state.queue[pick state % state.queue.length]? with
    | none => some state
    | some literal =>
      match fuel with
      | 0 => none
      | fuel + 1 =>
        applyHornRules pick fuel ((task.conditionOf literal).foldl task.satisfy
          { state with queue := state.queue.eraseIdx (pick state % state.queue.length) })

/-- The source takes the literal that came last. -/
def lastIn (state : AxiomState) : ℕ := state.queue.length - 1

def applyNbf (state : AxiomState) (var : ℕ) : AxiomState :=
  if state.buffer var = task.defaultValue var then
    { state with queue := state.queue ++ [⟨var, task.defaultValue var⟩] }
  else state

def evaluateLayer (pick : AxiomState → ℕ) (fuel : ℕ) (state : AxiomState) (layerNo : ℕ) :
    Option AxiomState := do
  let state ← task.applyHornRules pick fuel state
  if (layerNo : ℤ) ≠ task.lastLayer then
    return (task.nbfInfo layerNo).foldl task.applyNbf state
  else return state

def evaluateLogicAxioms (pick : AxiomState → ℕ) (fuel : ℕ) (buffer : ℕ → ℤ) : Option (ℕ → ℤ) :=
  if task.logicAxioms = [] then some buffer
  else
    ((List.range (task.lastLayer + 1).toNat).foldlM (task.evaluateLayer pick fuel)
      (task.start buffer)).map AxiomState.buffer

end LogicTask

end CutPlan.Search
