import CutPlan.Search.ExplicitTask
import CutPlan.Search.SearchGraph

set_option linter.unusedSectionVars false

/-! # The global constraint along plans

`fetch_next_node` drops entries that violate the global constraint, so expansions start in allowed
states only.  The injection of a chain walks through its states without that check.
-/

namespace CutPlan.Search

open CutPlan.Lib

namespace EagerSearch

variable {S O M Q : Type} [DecidableEq S] [DecidableEq O] {search : EagerSearch S O M Q}

/-! ## Injected chains may leave the allowed states -/

section Detour

/-- Two operators lead from 0 through 1 to the goal 2; one state is forbidden. -/
def detourTask (forbidden : ℕ) : Task ℕ Edge :=
  explicitTask [⟨"enter", 0, 1, 1⟩, ⟨"leave", 1, 2, 1⟩] [2] [forbidden]

def detourPlan : List Edge := [⟨"enter", 0, 1, 1⟩, ⟨"leave", 1, 2, 1⟩]

/-- Every response proposes both operators. -/
def detourSearch (forbidden : ℕ) : EagerSearch ℕ Edge Unit (TieBreakingBuckets ℕ) :=
  greedySearch (detourTask forbidden)
    { h := fun _ => 0
      costType := .normal
      bound := intMax
      reopenClosedNodes := true
      prefOnly := false
      llmTriggerMonitor := { enabled := true, skipPending := false, expectsResponse := true }
      parseLlmResponseBody := fun _ =>
        { valid := true, status := "ok", actionChains := [["enter", "leave"]] } }

/-- The initial state is requested, and its response arrives at once. -/
def detourInputs : List (SearchInput ℕ) :=
  List.replicate 30
    { completed := [{ stateId := 0, transportOk := true, body := "chain" }], requests := [0] }

theorem injected_chain_violates_constraint :
    ((detourSearch 1).machine.run detourInputs).plan = some detourPlan ∧
      1 ∈ (detourTask 1).statesAlong 0 detourPlan ∧
      (detourTask 1).violatesGlobalConstraint 1 = true := by
  decide +kernel

end Detour

/-! ## Chains that start their actions in allowed states -/

/-- An action of a chain that links its successor starts in a state satisfying the constraint. -/
def InjectsFromAllowed (search : EagerSearch S O M Q) (state : SearchState S O M Q) : Prop :=
  ∀ injection responses site parent op, state.control = .injectChains injection responses site →
    search.attempt state = some (parent, op) → search.Links state parent op →
      search.task.violatesGlobalConstraint parent = false

def AllowedControl (task : Task S O) : Control S O → Prop
  | .checkGoal id => task.violatesGlobalConstraint id = false
  | .expand id _ _ => task.violatesGlobalConstraint id = false
  | .tracePath _ current path =>
    ∀ state ∈ task.statesAlong current path, task.violatesGlobalConstraint state = false
  | .finished _ plan _ => ∀ path, plan = some path →
    ∀ state ∈ task.statesAlong task.initialState path, task.violatesGlobalConstraint state = false
  | _ => True

/-- Every parent in the search graph is an allowed state, and so is every state on the traced path. -/
structure AllowedParents (search : EagerSearch S O M Q) (state : SearchState S O M Q) : Prop where
  parents : ∀ id parent, (state.nodes id).parentStateId = some parent →
    search.task.violatesGlobalConstraint parent = false
  control : AllowedControl search.task state.control

/-- Whatever is linked starts in an allowed state. -/
theorem AllowedParents.link_allowed {state : SearchState S O M Q}
    (allowed : search.AllowedParents state) (condition : search.InjectsFromAllowed state) {parent : S}
    {op : O} (attempted : search.attempt state = some (parent, op))
    (links : search.Links state parent op) :
    search.task.violatesGlobalConstraint parent = false := by
  have control := allowed.control
  cases controlDef : state.control with
  | injectChains injection responses site =>
    exact condition injection responses site parent op controlDef attempted links
  | expand id preferredOps ops =>
    rw [controlDef] at control
    cases ops with
    | nil => simp [attempt, controlDef] at attempted
    | cons head tail =>
      simp only [attempt, controlDef] at attempted
      split at attempted
      · cases attempted
      · cases attempted
        exact control
  | _ => simp [attempt, controlDef] at attempted

theorem AllowedParents.step_parents {state after : SearchState S O M Q} {input : SearchInput S}
    (allowed : search.AllowedParents state) (condition : search.InjectsFromAllowed state)
    (step : search.Step input state after) (id parent : S)
    (pointer : (after.nodes id).parentStateId = some parent) :
    search.task.violatesGlobalConstraint parent = false := by
  have nodeStep := step.nodeStep
  generalize after.nodes = nodes at nodeStep pointer
  cases nodeStep with
  | unchanged => exact allowed.parents id parent pointer
  | openInitial _ _ =>
    rw [Function.update_apply] at pointer
    split at pointer
    · cases pointer
    · exact allowed.parents id parent pointer
  | close target _ | revisitedDeadEnd target _ | newDeadEnd _ _ _ _ =>
    rw [Function.update_apply] at pointer
    split at pointer
    · exact allowed.parents _ parent pointer
    · exact allowed.parents id parent pointer
  | link linkParent op status attempted links _ =>
    rw [Function.update_apply] at pointer
    split at pointer
    · obtain rfl : linkParent = parent := by simpa [linkedInfo] using pointer
      exact allowed.link_allowed condition attempted links
    · exact allowed.parents id parent pointer

theorem AllowedParents.step {state after : SearchState S O M Q} {input : SearchInput S}
    (wellFormed : search.WellFormed state) (condition : search.InjectsFromAllowed state)
    (allowed : search.AllowedParents state) (step : search.Step input state after) :
    search.AllowedParents after := by
  refine ⟨allowed.step_parents condition step, ?_⟩
  have control := allowed.control
  have linkedControl := wellFormed.control
  cases step with
  | closed id key rest _ _ verdict => exact (search.fetchResult_close verdict).1
  | goalFound id controlDef _ =>
    rw [controlDef] at control
    intro state member
    obtain rfl : state = id := by simpa [Task.statesAlong] using member
    exact control
  | expansionStarts id _ controlDef _ =>
    rw [controlDef] at control
    exact control
  | operatorRejected id _ _ _ controlDef _ | operatorApplied id _ _ _ _ controlDef _ _ =>
    rw [controlDef] at control
    exact control
  | planFound goalState current path controlDef created =>
    rw [controlDef] at control linkedControl
    intro plan planDef
    obtain rfl : path = plan := by simpa using planDef
    rcases linkedControl.1 with ⟨isRoot, _⟩ | notRoot
    · exact isRoot ▸ control
    · exact absurd created notRoot
  | pointerFollowed goalState current path op parent controlDef created pointer =>
    rw [controlDef] at control
    obtain ⟨linkedParent, linkedPointer, _, transition⟩ := wellFormed.graph.link current op created
    obtain rfl : parent = linkedParent := by
      rw [pointer] at linkedPointer
      exact Option.some.inj linkedPointer
    intro state member
    rcases List.mem_cons.mp member with rfl | later
    · exact allowed.parents current state pointer
    · rw [transition.reaches] at later
      exact control state later
  | fails _ _ _ =>
    intro path planDef
    cases planDef
  | pointerMissing _ _ _ _ _ _ _ => exact control
  | halted _ _ _ _ => exact control
  | _ => trivial

/-- If injected actions only link successors of allowed states, every state on a returned plan
satisfies the global constraint. -/
theorem plan_satisfies_constraint (search : EagerSearch S O M Q) (inputs : List (SearchInput S))
    (meets : search.machine.StepsMeet (fun state _ => search.InjectsFromAllowed state) search.start
      inputs) (plan : List O) (returned : (search.machine.run inputs).plan = some plan) :
    ∀ state ∈ search.task.statesAlong search.task.initialState plan,
      search.task.violatesGlobalConstraint state = false := by
  have allowed : search.AllowedParents (search.machine.run inputs) := by
    refine search.run_of_meets search.AllowedParents _ ⟨fun id parent pointer => ?_, trivial⟩
      (fun wellFormed condition before step => before.step wellFormed condition step) inputs meets
    cases pointer
  have control := allowed.control
  obtain ⟨_, _, controlDef⟩ := SearchState.finished_of_plan returned
  rw [controlDef] at control
  exact control plan rfl

/-- Away from the forbidden state the injected detour is fine. -/
theorem detour_satisfies_constraint :
    ((detourSearch 3).machine.run detourInputs).plan = some detourPlan ∧
      (detourTask 3).violatesGlobalConstraint 1 = false := by
  have injectsFromAllowed : ∀ state, (detourSearch 3).InjectsFromAllowed state := by
    intro state injection responses site parent op control attempted _
    simp only [attempt, control] at attempted
    split at attempted
    next action actions _ =>
      obtain ⟨selected, selection, pair⟩ := Option.map_eq_some_iff.mp attempted
      cases pair
      obtain ⟨member, applicable, _⟩ := selectOperator_transition selection
      simp only [detourSearch, greedySearch, detourTask, explicitTask, List.mem_cons,
        List.not_mem_nil, or_false, decide_eq_true_eq] at member applicable ⊢
      rw [← applicable]
      rcases member with rfl | rfl <;> decide
    next => cases attempted
  have returned : ((detourSearch 3).machine.run detourInputs).plan = some detourPlan := by
    decide +kernel
  refine ⟨returned, ?_⟩
  exact plan_satisfies_constraint (detourSearch 3) detourInputs
    ((detourSearch 3).machine.stepsMeet_of_forall (fun state _ => injectsFromAllowed state) _ _)
    detourPlan returned 1 (by decide +kernel)

end EagerSearch

end CutPlan.Search
