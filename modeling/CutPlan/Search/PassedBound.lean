import CutPlan.Search.IteratedSearch
import CutPlan.Search.SearchGraph

set_option linter.unusedSectionVars false

/-! # The bound passed to the next phase

The cost of the incumbent reaches the next child through an `int`.  It always lies in the range of
that type, so the child tests operators against the cost rounded down.
-/

namespace CutPlan.Search

open CutPlan.Lib

/-- The bound test of the engine rejects no operator application that could still lead to a plan
cheaper than the incumbent. -/
structure EagerSearch.LosesNoImprovingPlan {S O M Q : Type} (search : EagerSearch S O M Q)
    (incumbentCost : ℚ) : Prop where
  rejects : ∀ (realG : ℤ) (cost : ℚ), 0 ≤ realG → 0 ≤ cost →
    search.reachesBound realG cost = true → incumbentCost ≤ realG + cost
  keeps : ∀ (path rest : List O) (op : O),
    (∀ member ∈ path ++ op :: rest, member ∈ search.task.operators) →
    search.task.calculatePlanCost (path ++ op :: rest) < incumbentCost →
    ∀ node : SearchNodeInfo S O, (node.realG : ℚ) ≤ search.task.calculatePlanCost path →
      search.exceedsBound node op = false

namespace IteratedSearch

variable {S O M Q : Type} [DecidableEq S] [DecidableEq O] {iterated : IteratedSearch S O M Q}

/-! ## The best bound -/

theorem currentSearch_task {state : IteratedState O} {search : EagerSearch S O M Q}
    (current : iterated.currentSearch state = some search) : search.task = iterated.task := by
  obtain ⟨config, created, rfl⟩ := Option.map_eq_some_iff.mp current
  have member := iterated.engineConfigs_task config (mem_of_createPhase created)
  split
  · exact member
  · exact member

/-- The best bound is a cost within the range of `int`, namely that of the plan kept. -/
structure BestBound (iterated : IteratedSearch S O M Q) (state : IteratedState O) : Prop where
  nonneg : 0 ≤ state.bestBound
  le : state.bestBound ≤ iterated.bound
  kept : ∀ plan, state.plan = some plan → state.bestBound = iterated.task.calculatePlanCost plan

theorem BestBound.recordIncumbent {state : IteratedState O} (best : iterated.BestBound state)
    (foundPlan : Option (List O))
    (costNonneg : ∀ plan, foundPlan = some plan → 0 ≤ iterated.task.calculatePlanCost plan) :
    iterated.BestBound (iterated.recordIncumbent foundPlan state) := by
  unfold IteratedSearch.recordIncumbent
  split
  next => exact best
  next plan =>
    split
    next cheaper =>
      refine ⟨costNonneg plan rfl, le_of_lt (lt_of_lt_of_le cheaper best.le), ?_⟩
      intro kept keptDef
      obtain rfl : plan = kept := by simpa using keptDef
      rfl
    next => exact best

theorem childPlan_cost_nonneg (nonneg : iterated.task.NonnegativeCosts) {state : IteratedState O}
    {search : EagerSearch S O M Q} (current : iterated.currentSearch state = some search)
    (inputs : List (SearchInput S)) {plan : List O}
    (returned : (search.machine.run inputs).plan = some plan) :
    0 ≤ iterated.task.calculatePlanCost plan := by
  obtain ⟨goalState, _, executes⟩ := search.plan_executes inputs returned
  rw [currentSearch_task current] at executes
  exact Task.calculatePlanCost_nonneg nonneg executes.members

theorem BestBound.step (nonneg : iterated.task.NonnegativeCosts) {state after : IteratedState O}
    {input : PhaseInput S} (best : iterated.BestBound state)
    (step : iterated.Step state input after) : iterated.BestBound after := by
  cases step with
  | unchanged => exact best
  | runEnds status _ _ => exact ⟨best.nonneg, best.le, best.kept⟩
  | phaseEnds search _ current =>
    have finished : iterated.BestBound (finishPhase (search.machine.run input.search).plan state) :=
      ⟨best.nonneg, best.le, best.kept⟩
    have recorded := finished.recordIncumbent (search.machine.run input.search).plan
      (fun plan returned => childPlan_cost_nonneg nonneg current input.search returned)
    exact ⟨recorded.nonneg, recorded.le, recorded.kept⟩

theorem run_bestBound (nonneg : iterated.task.NonnegativeCosts) (inputs : List (PhaseInput S)) :
    iterated.BestBound (iterated.machine.run inputs) := by
  refine iterated.machine.run_invariant ⟨?_, le_refl _, fun plan kept => ?_⟩
    (fun state input best => best.step nonneg (iterated.next_step state input)) inputs
  · exact Int.cast_nonneg iterated.bound_nonneg
  · cases kept

/-! ## The bound of the child -/

theorem toInt_bestBound {state : IteratedState O} (best : iterated.BestBound state) :
    toInt state.bestBound = ⌊state.bestBound⌋ := by
  have lower : 0 ≤ ⌊state.bestBound⌋ := Int.floor_nonneg.mpr best.nonneg
  have upper : ⌊state.bestBound⌋ ≤ iterated.bound := by
    exact_mod_cast (Int.floor_le state.bestBound).trans best.le
  have range := iterated.bound_le_intMax
  rw [toInt, truncate, if_pos best.nonneg, if_pos]
  exact ⟨by unfold intMin; omega, by omega⟩

theorem losesNoImprovingPlan_iff (search : EagerSearch S O M Q) {cost : ℚ}
    (costNonneg : 0 ≤ cost) (bound : search.bound = ⌊cost⌋)
    (nonneg : search.task.NonnegativeCosts) :
    search.LosesNoImprovingPlan cost ↔ ∃ number : ℤ, cost = number := by
  constructor
  · intro lossless
    refine ⟨⌊cost⌋, le_antisymm ?_ (Int.floor_le cost)⟩
    have rejected : search.reachesBound ⌊cost⌋ 0 = true := by
      simp [EagerSearch.reachesBound, bound]
    simpa using lossless.rejects ⌊cost⌋ 0 (Int.floor_nonneg.mpr costNonneg) (le_refl 0) rejected
  · rintro ⟨number, rfl⟩
    rw [Int.floor_intCast] at bound
    constructor
    · intro realG cost _ _ rejected
      simpa [EagerSearch.reachesBound, bound] using rejected
    · intro path rest op members cheaper node within
      have restNonneg : 0 ≤ search.task.calculatePlanCost rest :=
        Task.calculatePlanCost_nonneg nonneg (fun member present => members member (by simp [present]))
      rw [Task.calculatePlanCost_append, Task.calculatePlanCost_cons] at cheaper
      simp only [EagerSearch.exceedsBound, EagerSearch.reachesBound, bound, decide_eq_false_iff_not,
        not_le]
      linarith

section Explicit

/-- The greedy search repeated with the bound passed on. -/
def repeatedSearch (task : Task ℕ Edge) (h : ℕ → ℚ) :
    IteratedSearch ℕ Edge Unit (TieBreakingBuckets ℕ) where
  task := task
  engineConfigs :=
    [greedySearch task
      { h := h
        costType := .normal
        bound := intMax
        reopenClosedNodes := true
        prefOnly := false
        llmTriggerMonitor := noRequests
        parseLlmResponseBody := fun _ => { valid := false, status := "", actionChains := [] } }]
  bound := intMax
  passBound := true
  repeatLastPhase := true
  continueOnFail := false
  continueOnSolve := true
  hasAnytimeDeadline := false
  engineConfigs_nonempty := by simp
  engineConfigs_task := by simp [greedySearch]
  bound_nonneg := by decide
  bound_le_intMax := le_refl _

def quietPhases (phases steps : ℕ) : List (PhaseInput ℕ) :=
  List.replicate phases
    { search := quietInputs steps
      searchTimedOut := false
      expiredBefore := false
      expiredAfter := false }

/-- Two plans of one operator each; the one found first costs 5/2, the other 9/4. -/
def fractionalTask : Task ℕ Edge :=
  explicitTask [⟨"first", 0, 1, 5 / 2⟩, ⟨"second", 0, 2, 9 / 4⟩] [1, 2] []

def fractionalSearch : IteratedSearch ℕ Edge Unit (TieBreakingBuckets ℕ) :=
  repeatedSearch fractionalTask (fun state => state)

end Explicit

end IteratedSearch

end CutPlan.Search
