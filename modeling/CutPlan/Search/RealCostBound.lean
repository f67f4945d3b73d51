import CutPlan.Search.ExplicitTask
import CutPlan.Search.SearchGraph

set_option linter.unusedSectionVars false

/-! # The bound on the real cost of a plan

Operators are tested against the bound with the stored `real_g` of their parent.  The stored values
bound the cost of the traced path as long as no record falls below its parent's record plus the cost
of the operator between them.
-/

namespace CutPlan.Search

open CutPlan.Lib

namespace EagerSearch

variable {S O M Q : Type} [DecidableEq S] [DecidableEq O] {search : EagerSearch S O M Q}

/-! ## A rewired parent leaves its children stale -/

section Rewiring

/-- State 3 is first reached by three free operators; the shorter way through 4 costs 8. -/
def rewiringTask : Task ℕ Edge :=
  explicitTask
    [⟨"a", 0, 1, 0⟩, ⟨"b", 1, 2, 0⟩, ⟨"c", 2, 3, 0⟩, ⟨"d", 3, 5, 5⟩, ⟨"e", 0, 4, 0⟩, ⟨"f", 4, 3, 8⟩]
    [5] []

/-- Greedy search with unit costs and the bound 10: state 4 is expanded after 3 and before 5. -/
def rewiringSearch : EagerSearch ℕ Edge Unit (TieBreakingBuckets ℕ) :=
  greedySearch rewiringTask
    { h := fun state => if state = 4 then 1 else if state = 5 then 2 else 0
      costType := .one
      bound := 10
      reopenClosedNodes := true
      prefOnly := false
      llmTriggerMonitor := noRequests
      parseLlmResponseBody := fun _ => { valid := false, status := "", actionChains := [] } }

theorem rewired_plan_exceeds_bound :
    (rewiringSearch.machine.run (quietInputs 70)).plan =
        some [⟨"e", 0, 4, 0⟩, ⟨"f", 4, 3, 8⟩, ⟨"d", 3, 5, 5⟩] ∧
      ¬ rewiringTask.calculatePlanCost [⟨"e", 0, 4, 0⟩, ⟨"f", 4, 3, 8⟩, ⟨"d", 3, 5, 5⟩] <
        rewiringSearch.bound := by
  decide +kernel

end Rewiring

/-! ## Links that keep the records sound -/

/-- Wherever the next step links a successor, the new `real_g` is stored exactly, and no child of the
successor has a smaller record than the new path through the successor allows. -/
def LinksSoundly (search : EagerSearch S O M Q) (state : SearchState S O M Q) : Prop :=
  ∀ parent op, search.attempt state = some (parent, op) → search.Links state parent op →
    FitsInt ((state.nodes parent).realG + search.task.cost op) ∧
      ∀ child childOp,
        (state.nodes child).parentStateId = some (search.task.getSuccessorState parent op) →
        (state.nodes child).creatingOperator = some childOp →
        (state.nodes parent).realG + search.task.cost op + search.task.cost childOp ≤
          (state.nodes child).realG

def BoundedControl (search : EagerSearch S O M Q) (nodes : SearchSpace S O) : Control S O → Prop
  | .tracePath goalState current path =>
    search.IsLinked nodes goalState ∧
      search.task.calculatePlanCost path + (nodes current).realG ≤ (nodes goalState).realG
  | .finished _ plan _ => ∀ path, plan = some path →
    search.task.calculatePlanCost path < search.bound
  | _ => True

/-- The records grow along the links by at least the operator costs and stay below the bound. -/
structure BoundedRecords (search : EagerSearch S O M Q) (state : SearchState S O M Q) : Prop where
  link : ∀ id parent op, (state.nodes id).parentStateId = some parent →
    (state.nodes id).creatingOperator = some op →
    (state.nodes parent).realG + search.task.cost op ≤ (state.nodes id).realG
  bounded : ∀ id, search.IsLinked state.nodes id →
    0 ≤ (state.nodes id).realG ∧ (state.nodes id).realG < search.bound
  control : search.BoundedControl state.nodes state.control

theorem BoundedRecords.step_link {state after : SearchState S O M Q} {input : SearchInput S}
    (wellFormed : search.WellFormed state) (nonneg : search.task.NonnegativeCosts)
    (condition : search.LinksSoundly state) (records : search.BoundedRecords state)
    (step : search.Step input state after) (id parent : S) (op : O)
    (pointer : (after.nodes id).parentStateId = some parent)
    (created : (after.nodes id).creatingOperator = some op) :
    (after.nodes parent).realG + search.task.cost op ≤ (after.nodes id).realG := by
  have recordStep := wellFormed.recordStep step.nodeStep
  generalize after.nodes = nodes at recordStep pointer created ⊢
  cases recordStep with
  | same same _ =>
    rw [(same id).parentStateId] at pointer
    rw [(same id).creatingOperator] at created
    rw [(same id).realG, (same parent).realG]
    exact records.link id parent op pointer created
  | openInitial control =>
    rw [wellFormed.fresh control, Function.update_apply] at pointer
    split at pointer <;> cases pointer
  | link newParent newOp status attempted links =>
    obtain ⟨stores, children⟩ := condition newParent newOp attempted links
    have different := wellFormed.link_ne nonneg attempted links
    have stored : ((search.linkedInfo state newParent newOp status).realG : ℚ) =
        (state.nodes newParent).realG + search.task.cost newOp := (toInt_eq_iff _).mpr stores
    by_cases sameNode : id = search.task.getSuccessorState newParent newOp
    · rw [sameNode, Function.update_self] at pointer created ⊢
      obtain rfl : newParent = parent := by simpa [linkedInfo] using pointer
      obtain rfl : newOp = op := by simpa [linkedInfo] using created
      rw [Function.update_of_ne different, stored]
    · rw [Function.update_of_ne sameNode] at pointer created ⊢
      by_cases sameParent : parent = search.task.getSuccessorState newParent newOp
      · subst sameParent
        rw [Function.update_self, stored]
        exact children id op pointer created
      · rw [Function.update_of_ne sameParent]
        exact records.link id parent op pointer created

theorem BoundedRecords.step_bounded {state after : SearchState S O M Q} {input : SearchInput S}
    (positive : 0 < search.bound) (nonneg : search.task.NonnegativeCosts)
    (wellFormed : search.WellFormed state) (condition : search.LinksSoundly state)
    (records : search.BoundedRecords state) (step : search.Step input state after) (id : S)
    (linked : search.IsLinked after.nodes id) :
    0 ≤ (after.nodes id).realG ∧ (after.nodes id).realG < search.bound := by
  have recordStep := wellFormed.recordStep step.nodeStep
  generalize after.nodes = nodes at recordStep linked ⊢
  cases recordStep with
  | same same linkedBefore =>
    rw [(same id).realG]
    exact records.bounded id (linkedBefore id linked)
  | openInitial control =>
    by_cases isRoot : id = search.task.initialState
    · rw [isRoot, Function.update_self]
      exact ⟨le_refl _, positive⟩
    · rw [Function.update_of_ne isRoot]
      exact records.bounded id ((isLinked_update_of_ne isRoot).mp linked)
  | link parent op status attempted links =>
    by_cases isTarget : id = search.task.getSuccessorState parent op
    · rw [isTarget, Function.update_self]
      have stored : ((search.linkedInfo state parent op status).realG : ℚ) =
          (state.nodes parent).realG + search.task.cost op :=
        (toInt_eq_iff _).mpr (condition parent op attempted links).1
      have within := attempt_within attempted
      have parentNonneg : (0 : ℚ) ≤ (state.nodes parent).realG := by
        exact_mod_cast (records.bounded parent (wellFormed.attempt_transition attempted).1).1
      have costNonneg := nonneg op (wellFormed.attempt_transition attempted).2.member
      constructor
      · have : (0 : ℚ) ≤ (search.linkedInfo state parent op status).realG := by
          rw [stored]
          linarith
        exact_mod_cast this
      · rw [← stored] at within
        exact_mod_cast within
    · rw [Function.update_of_ne isTarget]
      exact records.bounded id ((isLinked_update_of_ne isTarget).mp linked)

theorem BoundedRecords.step {state after : SearchState S O M Q} {input : SearchInput S}
    (positive : 0 < search.bound) (nonneg : search.task.NonnegativeCosts)
    (wellFormed : search.WellFormed state) (condition : search.LinksSoundly state)
    (records : search.BoundedRecords state) (step : search.Step input state after) :
    search.BoundedRecords after := by
  refine ⟨records.step_link wellFormed nonneg condition step,
    records.step_bounded positive nonneg wellFormed condition step, ?_⟩
  have control := records.control
  have linkedControl := wellFormed.control
  cases step with
  | goalFound id controlDef _ =>
    rw [controlDef] at linkedControl
    exact ⟨linkedControl, by simp⟩
  | planFound goalState current path controlDef created =>
    rw [controlDef] at control linkedControl
    intro plan planDef
    obtain rfl : path = plan := by simpa using planDef
    obtain ⟨goalLinked, traced⟩ := control
    have goalBounded : ((state.nodes goalState).realG : ℚ) < search.bound := by
      exact_mod_cast (records.bounded goalState goalLinked).2
    have currentNonneg : (0 : ℚ) ≤ (state.nodes current).realG := by
      exact_mod_cast (records.bounded current linkedControl.1).1
    linarith
  | pointerFollowed goalState current path op parent controlDef created pointer =>
    rw [controlDef] at control
    obtain ⟨goalLinked, traced⟩ := control
    refine ⟨goalLinked, ?_⟩
    have link := records.link current parent op pointer created
    simp only [Task.calculatePlanCost_cons]
    linarith
  | fails _ _ _ =>
    intro path planDef
    cases planDef
  | pointerMissing _ _ _ _ _ _ _ => exact control
  | halted _ _ _ _ => exact control
  | _ => trivial

theorem run_boundedRecords (positive : 0 < search.bound) (nonneg : search.task.NonnegativeCosts)
    (inputs : List (SearchInput S))
    (meets : search.machine.StepsMeet (fun state _ => search.LinksSoundly state) search.start
      inputs) : search.BoundedRecords (search.machine.run inputs) := by
  refine search.run_of_meets search.BoundedRecords search.LinksSoundly
    ⟨fun id parent op pointer => ?_, fun id linked => ?_, trivial⟩
    (fun wellFormed condition before step => before.step positive nonneg wellFormed condition step)
    inputs meets
  · cases pointer
  · simp [IsLinked, start, SearchNodeInfo.unseen] at linked

theorem BoundedRecords.plan_cost {state : SearchState S O M Q}
    (records : search.BoundedRecords state) {plan : List O} (returned : state.plan = some plan) :
    search.task.calculatePlanCost plan < search.bound := by
  have control := records.control
  obtain ⟨_, _, controlDef⟩ := SearchState.finished_of_plan returned
  rw [controlDef] at control
  exact control plan rfl

/-- The cost bound is real for every cost type as long as the links keep the records sound. -/
theorem plan_cost_lt_bound (search : EagerSearch S O M Q) (positive : 0 < search.bound)
    (nonneg : search.task.NonnegativeCosts) (inputs : List (SearchInput S))
    (meets : search.machine.StepsMeet (fun state _ => search.LinksSoundly state) search.start inputs)
    (plan : List O) (returned : (search.machine.run inputs).plan = some plan) :
    search.task.calculatePlanCost plan < search.bound :=
  (run_boundedRecords positive nonneg inputs meets).plan_cost returned

theorem linksSoundly_of_opensExactly (inputs : List (SearchInput S))
    (opens : search.machine.StepsMeet (fun state _ => search.opensExactly state = true)
      search.start inputs) :
    search.machine.StepsMeet (fun state _ => search.LinksSoundly state) search.start inputs := by
  refine search.stepsMeet_of_wellFormed _ ?_ inputs opens
  intro state wellFormed opens parent op attempted _
  obtain ⟨isNew, same, sum, sumDef, fits⟩ := opensExactly_sum opens attempted
  refine ⟨⟨sum, ?_, ?_, ?_⟩, fun child childOp pointer created => ?_⟩
  · rw [same, sumDef]
    simp
  · unfold intMin; omega
  · unfold intMax; omega
  · exact (wellFormed.childless isNew pointer created).elim

theorem chain_plan_cost_lt_bound :
    chainTask.calculatePlanCost chainPlan < chainSearch.bound :=
  plan_cost_lt_bound chainSearch (by decide) chainSearch_nonneg (quietInputs 30)
    (linksSoundly_of_opensExactly _ (by decide +kernel)) chainPlan (by decide +kernel)

/-! ## Bounds that leave nothing to search -/

def EmptyPathControl : Control S O → Prop
  | .tracePath _ _ path => path = []
  | .finished _ plan _ => ∀ path, plan = some path → path = []
  | _ => True

/-- Nothing but the initial state has been opened. -/
structure NothingLinked (search : EagerSearch S O M Q) (state : SearchState S O M Q) : Prop where
  created : ∀ id, (state.nodes id).creatingOperator = none
  realG : ∀ id, search.IsLinked state.nodes id → 0 ≤ (state.nodes id).realG
  control : EmptyPathControl state.control

theorem NothingLinked.step {state after : SearchState S O M Q} {input : SearchInput S}
    (nonpositive : search.bound ≤ 0) (nonneg : search.task.NonnegativeCosts)
    (wellFormed : search.WellFormed state) (nothing : search.NothingLinked state)
    (step : search.Step input state after) : search.NothingLinked after := by
  have records : (∀ id, (after.nodes id).creatingOperator = none) ∧
      ∀ id, search.IsLinked after.nodes id → 0 ≤ (after.nodes id).realG := by
    have recordStep := wellFormed.recordStep step.nodeStep
    generalize after.nodes = nodes at recordStep ⊢
    cases recordStep with
    | same same linkedBefore =>
      refine ⟨fun id => ?_, fun id linked => ?_⟩
      · rw [(same id).creatingOperator, nothing.created id]
      · rw [(same id).realG]
        exact nothing.realG id (linkedBefore id linked)
    | openInitial control =>
      refine ⟨fun id => ?_, fun id linked => ?_⟩
      · rw [Function.update_apply]
        split
        · rfl
        · exact nothing.created id
      · by_cases isRoot : id = search.task.initialState
        · rw [isRoot, Function.update_self]
          exact le_refl _
        · rw [Function.update_of_ne isRoot]
          exact nothing.realG id ((isLinked_update_of_ne isRoot).mp linked)
    | link parent op status attempted links =>
      have within := attempt_within attempted
      have parentNonneg : (0 : ℚ) ≤ (state.nodes parent).realG := by
        exact_mod_cast nothing.realG parent (wellFormed.attempt_transition attempted).1
      have costNonneg := nonneg op (wellFormed.attempt_transition attempted).2.member
      have boundNonpositive : (search.bound : ℚ) ≤ 0 := by exact_mod_cast nonpositive
      linarith
  refine ⟨records.1, records.2, ?_⟩
  have control := nothing.control
  cases step with
  | goalFound id controlDef _ => rfl
  | planFound goalState current path controlDef _ =>
    rw [controlDef] at control
    intro plan planDef
    obtain rfl : path = plan := by simpa using planDef
    exact control
  | pointerFollowed goalState current path op parent controlDef created pointer =>
    rw [nothing.created current] at created
    cases created
  | fails _ _ _ =>
    intro path planDef
    cases planDef
  | pointerMissing _ _ _ _ _ _ _ => exact control
  | halted _ _ _ _ => exact control
  | _ => trivial

/-- Under a bound that admits no operator the only plan is the empty one. -/
theorem plan_eq_nil_of_bound (nonpositive : search.bound ≤ 0)
    (nonneg : search.task.NonnegativeCosts) (inputs : List (SearchInput S)) {plan : List O}
    (returned : (search.machine.run inputs).plan = some plan) : plan = [] := by
  have nothing : search.NothingLinked (search.machine.run inputs) := by
    refine search.run_of_meets search.NothingLinked (fun _ => True)
      ⟨fun id => rfl, fun id linked => ?_, trivial⟩
      (fun wellFormed _ before step => before.step nonpositive nonneg wellFormed step) inputs
      (search.machine.stepsMeet_of_forall (fun _ _ => trivial) _ _)
    simp [IsLinked, start, SearchNodeInfo.unseen] at linked
  have control := nothing.control
  obtain ⟨_, _, controlDef⟩ := SearchState.finished_of_plan returned
  rw [controlDef] at control
  exact control plan rfl

/-- A plan is empty or stays below the bound, whatever the bound. -/
theorem plan_eq_nil_or_cost_lt (nonneg : search.task.NonnegativeCosts)
    (inputs : List (SearchInput S))
    (meets : search.machine.StepsMeet (fun state _ => search.LinksSoundly state) search.start inputs)
    {plan : List O} (returned : (search.machine.run inputs).plan = some plan) :
    plan = [] ∨ search.task.calculatePlanCost plan < search.bound := by
  rcases le_or_gt search.bound 0 with nonpositive | positive
  · exact .inl (plan_eq_nil_of_bound nonpositive nonneg inputs returned)
  · exact .inr ((run_boundedRecords positive nonneg inputs meets).plan_cost returned)

end EagerSearch

end CutPlan.Search
