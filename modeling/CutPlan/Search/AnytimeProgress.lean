import CutPlan.Search.PassedBound
import CutPlan.Search.RealCostBound

set_option linter.unusedSectionVars false

/-! # Progress of the anytime search

Every phase that solves the task improves on the incumbent, and a phase that fails ends the run, as
long as the initial state is not a goal and the children keep their records sound.
-/

namespace CutPlan.Search

open CutPlan.Lib

namespace IteratedSearch

variable {S O M Q : Type} [DecidableEq S] [DecidableEq O] {iterated : IteratedSearch S O M Q}

/-! ## An initial state that is a goal -/

section InitialGoal

def trivialSearch : IteratedSearch ℕ Edge Unit (TieBreakingBuckets ℕ) :=
  repeatedSearch (explicitTask [] [0] []) fun _ => 0

end InitialGoal

/-! ## What progress means -/

/-- The cost a phase has to beat. -/
def target (iterated : IteratedSearch S O M Q) (record : PhaseRecord O) : ℚ :=
  match record.incumbent with
  | none => iterated.bound
  | some incumbent => iterated.task.calculatePlanCost incumbent

def solvedPlans (state : IteratedState O) : List (List O) :=
  state.phases.filterMap PhaseRecord.plan

/-- No input brings another phase. -/
def RunEnds (iterated : IteratedSearch S O M Q) (state : IteratedState O) : Prop :=
  ∀ inputs, (iterated.machine.runFrom state inputs).phases = state.phases

structure AnytimeProgress (iterated : IteratedSearch S O M Q) (state : IteratedState O) : Prop where
  improves : ∀ record ∈ state.phases, ∀ plan, record.plan = some plan →
    (∃ goalState, iterated.task.testGoal goalState = true ∧
      iterated.task.Executes iterated.task.initialState plan goalState) ∧
    iterated.task.calculatePlanCost plan < iterated.target record
  /-- Every solved phase saves its plan. -/
  saved : state.incumbents = solvedPlans state
  decreasing : state.incumbents.Pairwise fun earlier later =>
    iterated.task.calculatePlanCost later < iterated.task.calculatePlanCost earlier
  cheapest : ∀ plan ∈ solvedPlans state, ∃ kept, state.plan = some kept ∧
    kept ∈ solvedPlans state ∧
    iterated.task.calculatePlanCost kept ≤ iterated.task.calculatePlanCost plan
  ends : ∀ record, state.phases.getLast? = some record → record.plan = none →
    iterated.continueOnFail = false ∨ iterated.engineConfigs.length ≤ state.phases.length →
    iterated.RunEnds state

/-! ## One phase -/

/-- The child of the next phase keeps its records sound while it reads the input. -/
def ChildLinksSoundly (iterated : IteratedSearch S O M Q) (state : IteratedState O)
    (input : PhaseInput S) : Prop :=
  ∀ search, iterated.currentSearch state = some search →
    search.machine.StepsMeet (fun searchState _ => search.LinksSoundly searchState) search.start
      input.search

theorem childPlan_improves (pass : iterated.passBound = true)
    (nonneg : iterated.task.NonnegativeCosts)
    (notGoal : iterated.task.testGoal iterated.task.initialState = false)
    {state : IteratedState O} {input : PhaseInput S} (best : iterated.BestBound state)
    (sound : iterated.ChildLinksSoundly state input) {search : EagerSearch S O M Q}
    (current : iterated.currentSearch state = some search) {plan : List O}
    (returned : (search.machine.run input.search).plan = some plan) :
    (∃ goalState, iterated.task.testGoal goalState = true ∧
      iterated.task.Executes iterated.task.initialState plan goalState) ∧
    iterated.task.calculatePlanCost plan < state.bestBound := by
  have sameTask := currentSearch_task current
  have meets := sound search current
  have reaches := search.plan_executes input.search returned
  have bounded := EagerSearch.plan_eq_nil_or_cost_lt (sameTask ▸ nonneg) input.search meets returned
  rw [sameTask] at reaches bounded
  refine ⟨reaches, ?_⟩
  rcases bounded with rfl | cheaper
  · obtain ⟨goalState, isGoal, executes⟩ := reaches
    cases executes
    rw [notGoal] at isGoal
    cases isGoal
  · obtain ⟨config, _, rfl⟩ := iterated.currentSearch_of_passBound pass current
    exact cheaper.trans_le (toInt_le best.nonneg)

/-- The run is over, or only its end is left to be noticed. -/
def Stopped (iterated : IteratedSearch S O M Q) (state : IteratedState O) : Prop :=
  state.status ≠ .inProgress ∨ iterated.createPhase state = none

theorem Stopped.step {state after : IteratedState O} {input : PhaseInput S}
    (stopped : iterated.Stopped state) (step : iterated.Step state input after) :
    iterated.Stopped after ∧ after.phases = state.phases := by
  cases step with
  | unchanged => exact ⟨stopped, rfl⟩
  | runEnds status _ ended => exact ⟨.inl ended, rfl⟩
  | phaseEnds search running current =>
    rcases stopped with ended | noPhase
    · exact absurd running ended
    · simp [currentSearch, noPhase] at current

theorem Stopped.runEnds {state : IteratedState O} (stopped : iterated.Stopped state) :
    iterated.RunEnds state := by
  intro inputs
  induction inputs generalizing state with
  | nil => rfl
  | cons input inputs inductionHypothesis =>
    obtain ⟨stillStopped, same⟩ := stopped.step (iterated.next_step state input)
    exact (inductionHypothesis stillStopped).trans same

/-- A failed phase stops the run, unless the search goes on with the configurations still unused. -/
theorem stopped_of_failed {state : IteratedState O} {input : PhaseInput S}
    (last : iterated.continueOnFail = false ∨ iterated.engineConfigs.length ≤ state.phase + 1) :
    iterated.Stopped (iterated.completePhase input none state) := by
  cases continues : iterated.continueOnFail with
  | false =>
    left
    simp only [completePhase, recordIncumbent, finishPhase, stepReturnValue, continues]
    split_ifs <;> simp_all
  | true =>
    right
    rw [continues] at last
    have exhausted : iterated.engineConfigs.length ≤ state.phase + 1 := by simpa using last
    simp [createPhase, completePhase, recordIncumbent, finishPhase, exhausted]

/-! ## Whole runs -/

/-- What the phases so far have established. -/
structure PhasesImprove (iterated : IteratedSearch S O M Q) (state : IteratedState O) : Prop where
  best : iterated.BestBound state
  unbeaten : state.plan = none → state.bestBound = iterated.bound
  improves : ∀ record ∈ state.phases, ∀ plan, record.plan = some plan →
    (∃ goalState, iterated.task.testGoal goalState = true ∧
      iterated.task.Executes iterated.task.initialState plan goalState) ∧
    iterated.task.calculatePlanCost plan < iterated.target record
  saved : state.incumbents = solvedPlans state
  kept : state.plan = state.incumbents.getLast?
  lowest : ∀ plan ∈ state.incumbents, state.bestBound ≤ iterated.task.calculatePlanCost plan
  decreasing : state.incumbents.Pairwise fun earlier later =>
    iterated.task.calculatePlanCost later < iterated.task.calculatePlanCost earlier
  counted : state.phase = state.phases.length
  stops : ∀ record, state.phases.getLast? = some record → record.plan = none →
    iterated.continueOnFail = false ∨ iterated.engineConfigs.length ≤ state.phases.length →
    iterated.Stopped state

theorem PhasesImprove.target_eq {state : IteratedState O} (before : iterated.PhasesImprove state)
    (foundPlan : Option (List O)) :
    iterated.target { incumbent := state.plan, plan := foundPlan } = state.bestBound := by
  unfold target
  cases keptDef : state.plan with
  | none => exact (before.unbeaten keptDef).symm
  | some incumbent => exact (before.best.kept incumbent keptDef).symm

theorem PhasesImprove.phaseFails {state : IteratedState O} {input : PhaseInput S}
    (before : iterated.PhasesImprove state) :
    iterated.PhasesImprove (iterated.completePhase input none state) where
  best := ⟨before.best.nonneg, before.best.le, before.best.kept⟩
  unbeaten := before.unbeaten
  improves := by
    intro record member plan solved
    rcases List.mem_append.mp member with earlier | isNew
    · exact before.improves record earlier plan solved
    · obtain rfl := List.mem_singleton.mp isNew
      cases solved
  saved := by
    simp [completePhase, recordIncumbent, finishPhase, solvedPlans, before.saved]
  kept := before.kept
  lowest := before.lowest
  decreasing := before.decreasing
  counted := by
    simp [completePhase, recordIncumbent, finishPhase, before.counted]
  stops := by
    intro record _ _ last
    refine stopped_of_failed ?_
    simpa [completePhase, recordIncumbent, finishPhase, before.counted] using last

theorem PhasesImprove.phaseSolves {state : IteratedState O} {input : PhaseInput S} {plan : List O}
    (before : iterated.PhasesImprove state)
    (reaches : ∃ goalState, iterated.task.testGoal goalState = true ∧
      iterated.task.Executes iterated.task.initialState plan goalState)
    (costNonneg : 0 ≤ iterated.task.calculatePlanCost plan)
    (cheaper : iterated.task.calculatePlanCost plan < state.bestBound) :
    iterated.PhasesImprove (iterated.completePhase input (some plan) state) := by
  have recorded : iterated.recordIncumbent (some plan) (finishPhase (some plan) state) =
      { finishPhase (some plan) state with
        bestBound := iterated.task.calculatePlanCost plan
        incumbents := state.incumbents ++ [plan]
        plan := some plan } := if_pos cheaper
  unfold completePhase
  rw [recorded]
  constructor
  · refine ⟨costNonneg, cheaper.le.trans before.best.le, fun kept keptDef => ?_⟩
    obtain rfl : plan = kept := by simpa using keptDef
    rfl
  · intro keptDef
    cases keptDef
  · intro record member solvedPlan solved
    rcases List.mem_append.mp member with earlier | isNew
    · exact before.improves record earlier solvedPlan solved
    · obtain rfl := List.mem_singleton.mp isNew
      obtain rfl : plan = solvedPlan := by simpa using solved
      exact ⟨reaches, cheaper.trans_eq (before.target_eq (some plan)).symm⟩
  · simp [solvedPlans, finishPhase, before.saved]
  · simp
  · intro earlier member
    rcases List.mem_append.mp member with old | isNew
    · exact cheaper.le.trans (before.lowest earlier old)
    · rw [List.mem_singleton.mp isNew]
  · refine List.pairwise_append.mpr ⟨before.decreasing, List.pairwise_singleton _ _, ?_⟩
    intro earlier member later isNew
    rw [List.mem_singleton.mp isNew]
    exact cheaper.trans_le (before.lowest earlier member)
  · simp [finishPhase, before.counted]
  · intro record last failed
    obtain rfl : _ = record := by simpa [finishPhase] using last
    cases failed

theorem PhasesImprove.step (pass : iterated.passBound = true)
    (nonneg : iterated.task.NonnegativeCosts)
    (notGoal : iterated.task.testGoal iterated.task.initialState = false)
    {state after : IteratedState O} {input : PhaseInput S}
    (before : iterated.PhasesImprove state) (sound : iterated.ChildLinksSoundly state input)
    (step : iterated.Step state input after) : iterated.PhasesImprove after := by
  cases step with
  | unchanged => exact before
  | runEnds status running ended =>
    exact {
      best := ⟨before.best.nonneg, before.best.le, before.best.kept⟩
      unbeaten := before.unbeaten
      improves := before.improves
      saved := before.saved
      kept := before.kept
      lowest := before.lowest
      decreasing := before.decreasing
      counted := before.counted
      stops := fun _ _ _ _ => .inl ended }
  | phaseEnds search running current =>
    cases returned : (search.machine.run input.search).plan with
    | none => exact before.phaseFails
    | some plan =>
      obtain ⟨reaches, cheaper⟩ :=
        childPlan_improves pass nonneg notGoal before.best sound current returned
      exact before.phaseSolves reaches
        (childPlan_cost_nonneg nonneg current input.search returned) cheaper

theorem PhasesImprove.progress {state : IteratedState O} (holds : iterated.PhasesImprove state) :
    iterated.AnytimeProgress state where
  improves := holds.improves
  saved := holds.saved
  decreasing := holds.decreasing
  cheapest := by
    intro plan member
    rw [← holds.saved] at member ⊢
    obtain ⟨kept, keptDef⟩ := Option.isSome_iff_exists.mp
      (List.getLast?_isSome.mpr (List.ne_nil_of_mem member))
    have isKept := holds.kept.trans keptDef
    refine ⟨kept, isKept, List.mem_of_getLast? keptDef, ?_⟩
    rw [← holds.best.kept kept isKept]
    exact holds.lowest plan member
  ends := fun record last failed exhausted => (holds.stops record last failed exhausted).runEnds

section Improving

def improvingTask : Task ℕ Edge :=
  explicitTask [⟨"long", 0, 1, 3⟩, ⟨"short", 0, 2, 1⟩] [1, 2] []

def improvingSearch : IteratedSearch ℕ Edge Unit (TieBreakingBuckets ℕ) :=
  repeatedSearch improvingTask fun state => state

/-- The child of the next phase only opens new nodes. -/
def childOpensExactly (iterated : IteratedSearch S O M Q) (state : IteratedState O)
    (input : PhaseInput S) : Bool :=
  match iterated.currentSearch state with
  | none => true
  | some search =>
    decide (search.machine.StepsMeet (fun searchState _ => search.opensExactly searchState = true)
      search.start input.search)

theorem childLinksSoundly_of_opensExactly {state : IteratedState O} {input : PhaseInput S}
    (opens : iterated.childOpensExactly state input = true) :
    iterated.ChildLinksSoundly state input := by
  intro search current
  simp only [childOpensExactly, current, decide_eq_true_eq] at opens
  exact EagerSearch.linksSoundly_of_opensExactly input.search opens

end Improving

end IteratedSearch

end CutPlan.Search
