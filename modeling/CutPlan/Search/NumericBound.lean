import CutPlan.Lib.OneSidedBounds
import CutPlan.Search.NumericHelper

/-! # Bounds of numeric variables

`NumericBound`: bounds of the variables in reachable states, before actions, and of the changes and
results of their effects.  A bound that is not there has no value.  Upper and lower bounds are treated
alike, with the order reversed.
-/

namespace CutPlan.Search

open CutPlan.Lib CutPlan.Sas

/-- A numeric precondition with the margin by which a strict one is taken to be exceeded. -/
structure BoundCondition extends LinearNumericCondition where
  epsilon : ℚ
  epsilon_eq_zero : isStrictlyGreater = false → epsilon = 0

structure BoundAction extends Action where
  numList : List BoundCondition

/-- What `NumericBound` reads of the numeric task. -/
structure BoundTask where
  numericVariableCount : ℕ
  actionCount : ℕ
  actions : ℕ → BoundAction
  precision : ℚ
  precision_pos : 0 < precision
  lhs_lt : ∀ op, ∀ effect ∈ (actions op).linearEffects, effect.lhs < numericVariableCount

structure BoundTables where
  variableBounds : ℕ → BoundPair ℚ
  /-- By action and variable. -/
  effectBounds : ℕ → ℕ → BoundPair ℚ
  assignmentBounds : ℕ → ℕ → BoundPair ℚ
  /-- By variable and action. -/
  beforeActionBounds : ℕ → ℕ → BoundPair ℚ

namespace BoundTask

variable (task : BoundTask)

/-! ## Preparation -/

def prepareEffect (action : BoundAction) : ℕ → BoundPair ℚ :=
  let simple (var : ℕ) : BoundPair ℚ :=
    if action.isAssignment var then .exactly 0
    else if task.precision ≤ |action.effList var| then .exactly (action.effList var)
    else .exactly 0
  let conditional := action.conditionalEffList.foldl
    (fun bounds effect => Function.update bounds effect.var (.exactly effect.value)) simple
  action.linearEffects.foldl (fun bounds effect => Function.update bounds effect.lhs .none) conditional

def prepareAssignment (action : BoundAction) : ℕ → BoundPair ℚ :=
  let constant (var : ℕ) : BoundPair ℚ :=
    if action.isAssignment var then .exactly (action.assignList var) else .none
  let conditional := action.conditionalAssignList.foldl
    (fun bounds effect => Function.update bounds effect.var (.exactly effect.value)) constant
  action.linearEffects.foldl (fun bounds effect => Function.update bounds effect.lhs .none) conditional

def prepare : BoundTables where
  variableBounds := fun _ => .none
  effectBounds := fun op => task.prepareEffect (task.actions op)
  assignmentBounds := fun op => prepareAssignment (task.actions op)
  beforeActionBounds := fun _ _ => .none

/-! ## Updates -/

/-- A new bound replaces the old one if it differs by the precision at least. -/
def refresh (old new : Option ℚ) : Option ℚ × Bool :=
  match new with
  | none => (old, false)
  | some bound =>
    match old with
    | none => (some bound, true)
    | some current =>
      if task.precision ≤ |current - bound| then (some bound, true) else (some current, false)

def refreshPair (old new : BoundPair ℚ) : BoundPair ℚ × Bool :=
  (fun side => (task.refresh (old side) (new side)).1,
    (task.refresh (old .upper) (new .upper)).2 || (task.refresh (old .lower) (new .lower)).2)

/-- Runs the updates in order and says whether one of them changed something. -/
def forEach {ι : Type} (indices : List ι) (update : BoundTables → ι → BoundTables × Bool)
    (tables : BoundTables) : BoundTables × Bool :=
  indices.foldl
    (fun (tables, change) index =>
      let (tables, changes) := update tables index
      (tables, change || changes))
    (tables, false)

/-- The bound from the preconditions that have bounds for all other variables. -/
def beforeActionBound (tables : BoundTables) (var op : ℕ) (side : Side) : Option ℚ :=
  (task.actions op).numList.foldl
    (fun bound condition =>
      let w := condition.coefficients var
      if task.precision ≤ |w| then
        match sumBound task.precision .upper condition.coefficients
            (fun other => tables.beforeActionBounds other op) var task.numericVariableCount
            (condition.constant - condition.epsilon) with
        | some k =>
          if side.signed w ≤ -task.precision then some (side.tightenSome bound (-k / w)) else bound
        | none => bound
      else bound)
    (tables.variableBounds var side)

def updateBeforeActionBounds : BoundTables → BoundTables × Bool :=
  forEach ((List.range task.numericVariableCount).product (List.range task.actionCount))
    fun tables (var, op) =>
      let (bounds, change) :=
        task.refreshPair (tables.beforeActionBounds var op) (task.beforeActionBound tables var op)
      ({ tables with
          beforeActionBounds := Function.update tables.beforeActionBounds var
            (Function.update (tables.beforeActionBounds var) op bounds) }, change)

/-- The bound after an action: `none` if there is none, `some none` if the action has no effect in the
direction of the bound.  An action without an effect by its effect bound is not asked for what it
assigns. -/
def localBound (side : Side) (effect before assignment : Option ℚ) : Option (Option ℚ) :=
  match effect with
  | some increment =>
    if side.signed increment < task.precision then some none
    else
      match before with
      | some bound =>
        match assignment with
        | some assigned => some (some (side.tighten (increment + bound) assigned))
        | none => some (some (increment + bound))
      | none => assignment.map some
  | none => assignment.map some

def variableBound (state : ℕ → ℚ) (tables : BoundTables) (var : ℕ) (side : Side) : Option ℚ :=
  (List.range task.actionCount).foldlM
    (fun bound op => do
      let effect ← task.localBound side (tables.effectBounds op var side)
        (tables.beforeActionBounds var op side) (tables.assignmentBounds op var side)
      return match effect with
        | some reached => side.widen bound reached
        | none => bound)
    (state var)

def updateVariableBounds (state : ℕ → ℚ) : BoundTables → BoundTables × Bool :=
  forEach (List.range task.numericVariableCount) fun tables var =>
    let bounds := task.variableBound state tables var
    ({ tables with
        variableBounds := Function.update tables.variableBounds var
          fun side => (bounds side).or (tables.variableBounds var side) },
      (task.refreshPair (tables.variableBounds var) bounds).2)

/-- The factor between the coefficients and a condition.  `scale_initialized` is never set, so the
factors of different variables are not compared. -/
def findScale (coefficients : ℕ → ℚ) (condition : BoundCondition) : Option ℚ :=
  (List.range task.numericVariableCount).foldlM
    (fun scale var =>
      if task.precision ≤ |coefficients var| ∧ task.precision ≤ |condition.coefficients var| then
        some (coefficients var / condition.coefficients var)
      else if task.precision ≤ |coefficients var| ∨ task.precision ≤ |condition.coefficients var| then
        none
      else some scale)
    0

def checkCoefficientInPreconditions (coefficients : ℕ → ℚ) (op : ℕ) : BoundPair ℚ := fun side =>
  (task.actions op).numList.foldl
    (fun bound condition =>
      match task.findScale coefficients condition with
      | some scale =>
        if side.signed scale ≤ -task.precision then
          some (side.tightenSome bound ((-condition.constant + condition.epsilon) * scale))
        else bound
      | none => bound)
    none

/-- The bound with the one that a precondition gives for the same expression without its constant. -/
def withPrecondition (side : Side) (bound checked : Option ℚ) (constant : ℚ) : Option ℚ :=
  match checked with
  | some value => some (side.tightenSome bound (value + constant))
  | none => bound

/-- The bound of a linear effect without the term of the variable that it changes. -/
def otherTerms (tables : BoundTables) (op : ℕ) (effect : LinearEffect) (side : Side) : Option ℚ :=
  sumBound task.precision side effect.coefficients (fun var => tables.beforeActionBounds var op)
    effect.lhs task.numericVariableCount effect.constant

def assignmentBound (tables : BoundTables) (op : ℕ) (effect : LinearEffect) (side : Side) : Option ℚ :=
  let bound := do
    let others ← task.otherTerms tables op effect side
    let term ← termBound task.precision side (effect.coefficients effect.lhs)
      (tables.beforeActionBounds effect.lhs op)
    some (others + term)
  withPrecondition side bound (task.checkCoefficientInPreconditions effect.coefficients op side)
    effect.constant

/-- The own term of an increment.  A positive coefficient is multiplied by whether there is a bound
instead of by the bound. -/
def incrementTerm (side : Side) (coefficient : ℚ) (bounds : BoundPair ℚ) : Option ℚ :=
  if |coefficient| < task.precision then some 0
  else if task.precision ≤ coefficient then (bounds side).map fun _ => coefficient
  else (bounds side.opposite).map (coefficient * ·)

def incrementCoefficients (effect : LinearEffect) : ℕ → ℚ :=
  Function.update effect.coefficients effect.lhs (effect.coefficients effect.lhs - 1)

def effectBound (tables : BoundTables) (op : ℕ) (effect : LinearEffect) (side : Side) : Option ℚ :=
  let bound := do
    let others ← task.otherTerms tables op effect side
    let term ← task.incrementTerm side (effect.coefficients effect.lhs - 1)
      (tables.beforeActionBounds effect.lhs op)
    some (others + term)
  withPrecondition side bound
    (task.checkCoefficientInPreconditions (incrementCoefficients effect) op side) effect.constant

def updateActionBounds : BoundTables → BoundTables × Bool :=
  forEach
    ((List.range task.actionCount).flatMap fun op =>
      (task.actions op).linearEffects.map fun effect => (op, effect))
    fun tables (op, effect) =>
      let assignment := task.refreshPair (tables.assignmentBounds op effect.lhs)
        (task.assignmentBound tables op effect)
      let change := task.refreshPair (tables.effectBounds op effect.lhs)
        (task.effectBound tables op effect)
      ({ tables with
          assignmentBounds := Function.update tables.assignmentBounds op
            (Function.update (tables.assignmentBounds op) effect.lhs assignment.1)
          effectBounds := Function.update tables.effectBounds op
            (Function.update (tables.effectBounds op) effect.lhs change.1) },
        assignment.2 || change.2)

/-! ## The loop -/

/-- The second and the third update run only after one before them that changes nothing. -/
def runIterations (state : ℕ → ℚ) : ℕ → BoundTables → BoundTables
  | 0, tables => tables
  | iterations + 1, tables =>
    let (tables, change) := task.updateVariableBounds state tables
    if change then runIterations state iterations tables
    else
      let (tables, change) := task.updateActionBounds tables
      if change then runIterations state iterations tables
      else
        let (tables, change) := task.updateBeforeActionBounds tables
        if change then runIterations state iterations tables else tables

def calculateBounds (state : ℕ → ℚ) (iterations : ℕ) : BoundTables :=
  task.runIterations state iterations (task.updateBeforeActionBounds task.prepare).1

/-- The tables after the preparation and after each update, as often and in whichever order the updates
run. -/
inductive Stage (state : ℕ → ℚ) : BoundTables → Prop
  | prepare : Stage state task.prepare
  | beforeActionBounds {tables : BoundTables} : Stage state tables →
      Stage state (task.updateBeforeActionBounds tables).1
  | variableBounds {tables : BoundTables} : Stage state tables →
      Stage state (task.updateVariableBounds state tables).1
  | actionBounds {tables : BoundTables} : Stage state tables →
      Stage state (task.updateActionBounds tables).1

end BoundTask

end CutPlan.Search
