import CutPlan.Search.ExplicitTask

set_option linter.unusedSectionVars false

/-! # Iterated search

`IteratedSearch` as a machine whose steps are its phases.  A phase creates a child engine, hands the
cost of the best plan over as bound, runs the child to its end and records an incumbent if the plan
found is cheaper than the best one.  The bound of an engine is an `int`, the best bound of the
iteration a floating-point number.
-/

namespace CutPlan.Search

open CutPlan.Lib

/-- `set_bound(int)`, called with a floating-point argument. -/
def EagerSearch.setBound {S O M Q : Type} (search : EagerSearch S O M Q) (bound : ℚ) :
    EagerSearch S O M Q :=
  { search with bound := toInt bound }

structure IteratedSearch (S O M Q : Type) where
  task : Task S O
  engineConfigs : List (EagerSearch S O M Q)
  bound : ℤ
  passBound : Bool
  repeatLastPhase : Bool
  continueOnFail : Bool
  continueOnSolve : Bool
  hasAnytimeDeadline : Bool
  engineConfigs_nonempty : engineConfigs ≠ []
  engineConfigs_task : ∀ config ∈ engineConfigs, config.task = task
  bound_nonneg : 0 ≤ bound
  bound_le_intMax : bound ≤ intMax

/-- What one phase reads: the inputs of its child up to the end of the child or its timeout, and
whether the deadline of the iteration has passed before and after the child's search. -/
structure PhaseInput (S : Type) where
  search : List (SearchInput S)
  searchTimedOut : Bool
  expiredBefore : Bool
  expiredAfter : Bool

/-- A finished phase: the incumbent it started with and the plan it found. -/
structure PhaseRecord (O : Type) where
  incumbent : Option (List O)
  plan : Option (List O)

/-- `incumbents` are the plans saved so far, `plan` is the plan set by the iteration itself, and
`phases` records the finished phases. -/
structure IteratedState (O : Type) where
  phase : ℕ
  lastPhaseFoundSolution : Bool
  bestBound : ℚ
  iteratedFoundSolution : Bool
  incumbents : List (List O)
  plan : Option (List O)
  status : SearchStatus
  phases : List (PhaseRecord O)

namespace IteratedSearch

variable {S O M Q : Type} [DecidableEq S] [DecidableEq O] (iterated : IteratedSearch S O M Q)

def start : IteratedState O where
  phase := 0
  lastPhaseFoundSolution := false
  bestBound := iterated.bound
  iteratedFoundSolution := false
  incumbents := []
  plan := none
  status := .inProgress
  phases := []

def createPhase (state : IteratedState O) : Option (EagerSearch S O M Q) :=
  if iterated.engineConfigs.length ≤ state.phase then
    if iterated.repeatLastPhase && state.lastPhaseFoundSolution then
      iterated.engineConfigs.getLast?
    else none
  else iterated.engineConfigs[state.phase]?

/-- The child engine of the next phase with the bound it searches under. -/
def currentSearch (state : IteratedState O) : Option (EagerSearch S O M Q) :=
  (iterated.createPhase state).map fun search =>
    if iterated.passBound then search.setBound state.bestBound else search

def stepReturnValue (state : IteratedState O) : SearchStatus :=
  if state.lastPhaseFoundSolution then
    if iterated.continueOnSolve then .inProgress else .solved
  else
    if iterated.continueOnFail then .inProgress
    else if state.iteratedFoundSolution then .solved else .failed

/-- The phase counter and the flags after a child search that returned the plan, if any. -/
def finishPhase (foundPlan : Option (List O)) (state : IteratedState O) : IteratedState O :=
  { state with
    phase := state.phase + 1
    lastPhaseFoundSolution := foundPlan.isSome
    iteratedFoundSolution := state.iteratedFoundSolution || foundPlan.isSome
    phases := state.phases ++ [{ incumbent := state.plan, plan := foundPlan }] }

/-- Saves a plan that is cheaper than the best bound. -/
def recordIncumbent (foundPlan : Option (List O)) (state : IteratedState O) : IteratedState O :=
  match foundPlan with
  | none => state
  | some plan =>
    if iterated.task.calculatePlanCost plan < state.bestBound then
      { state with
        bestBound := iterated.task.calculatePlanCost plan
        incumbents := state.incumbents ++ [plan]
        plan := some plan }
    else state

/-- What follows the search of a phase. -/
def completePhase (input : PhaseInput S) (foundPlan : Option (List O)) (state : IteratedState O) :
    IteratedState O :=
  let finished := iterated.recordIncumbent foundPlan (finishPhase foundPlan state)
  { finished with
    status :=
      if input.searchTimedOut && iterated.hasAnytimeDeadline && input.expiredAfter then .timeout
      else iterated.stepReturnValue finished }

/-- One call of `step`.  Inputs under which the child neither ends nor times out do not complete the
phase. -/
def next (state : IteratedState O) (input : PhaseInput S) : IteratedState O :=
  if state.status ≠ .inProgress then state
  else
    match iterated.currentSearch state with
    | none => { state with status := if state.plan.isSome then .solved else .failed }
    | some search =>
      if iterated.hasAnytimeDeadline && input.expiredBefore then { state with status := .timeout }
      else if (search.machine.run input.search).status = .inProgress && !input.searchTimedOut then
        state
      else iterated.completePhase input (search.machine.run input.search).plan state

def machine : Machine (IteratedState O) (PhaseInput S) where
  start := iterated.start
  next := iterated.next

/-! ## What a step does -/

/-- The ways a step can end. -/
inductive Step (state : IteratedState O) (input : PhaseInput S) : IteratedState O → Prop where
  | unchanged : Step state input state
  | runEnds (status : SearchStatus) : state.status = .inProgress → status ≠ .inProgress →
      Step state input { state with status := status }
  | phaseEnds (search : EagerSearch S O M Q) :
      state.status = .inProgress →
      iterated.currentSearch state = some search →
      Step state input (iterated.completePhase input (search.machine.run input.search).plan state)

theorem next_step (state : IteratedState O) (input : PhaseInput S) :
    iterated.Step state input (iterated.next state input) := by
  unfold next
  split
  next => exact .unchanged
  next running =>
    rw [not_not] at running
    split
    next =>
      refine .runEnds _ running ?_
      split <;> decide
    next search current =>
      split
      next => exact .runEnds _ running (by decide)
      next =>
        split
        next => exact .unchanged
        next => exact .phaseEnds search running current

variable {iterated} in
theorem mem_of_createPhase {state : IteratedState O} {config : EagerSearch S O M Q}
    (created : iterated.createPhase state = some config) : config ∈ iterated.engineConfigs := by
  unfold createPhase at created
  split at created
  · split at created
    · exact List.mem_of_getLast? created
    · cases created
  · exact List.mem_of_getElem? created

theorem currentSearch_of_passBound (pass : iterated.passBound = true) {state : IteratedState O}
    {search : EagerSearch S O M Q} (current : iterated.currentSearch state = some search) :
    ∃ config ∈ iterated.engineConfigs, search = config.setBound state.bestBound := by
  obtain ⟨config, created, rfl⟩ := Option.map_eq_some_iff.mp current
  exact ⟨config, mem_of_createPhase created, by rw [if_pos pass]⟩

end IteratedSearch

end CutPlan.Search
