import CutPlan.Lib.ParentForest
import CutPlan.Search.ExplicitTask
import CutPlan.Search.SearchGraph

set_option linter.unusedSectionVars false

/-! # Soundness of the search graph

With the cost type `normal` the members `g` and `real_g` of a node hold the same number as long as
every stored sum fits the bit-field.  Then parents never lie above their children, whatever
expansions, rewirings and injections happen in between, and the pointers form a tree.
-/

namespace CutPlan.Search

open CutPlan.Lib

namespace EagerSearch

variable {S O M Q : Type} [DecidableEq S] [DecidableEq O] {search : EagerSearch S O M Q}

/-! ## Traced paths -/

def pointers (nodes : SearchSpace S O) : S → Option S :=
  fun id => (nodes id).parentStateId

/-- `trace_path` ends on the state and returns the path. -/
inductive Traces (nodes : SearchSpace S O) : S → List O → Prop where
  | root {id : S} : (nodes id).creatingOperator = none → Traces nodes id []
  | link {id parent : S} {op : O} {path : List O} : (nodes id).creatingOperator = some op →
      (nodes id).parentStateId = some parent → Traces nodes parent path →
      Traces nodes id (path ++ [op])

/-- What the search graph promises for every open or closed node. -/
structure SoundGraph (search : EagerSearch S O M Q) (nodes : SearchSpace S O) : Prop where
  root : (nodes search.task.initialState).parentStateId = none
  tree : ∀ id, IsVisited nodes id → ReachesRoot (pointers nodes) search.task.initialState id
  link : ∀ id op, IsVisited nodes id → (nodes id).creatingOperator = some op →
    ∃ parent, (nodes id).parentStateId = some parent ∧ search.task.Transition parent op id
  traced : ∀ id, IsVisited nodes id → ∃ path, Traces nodes id path ∧
    search.task.Executes search.task.initialState path id ∧
    search.task.calculatePlanCost path ≤ (nodes id).realG

/-! ## A sum beyond the bit-field closes a cycle -/

section Overflow

/-- The first cost is smaller than the bound but exceeds the range of the bit-field. -/
def overflowTask : Task ℕ Edge :=
  explicitTask [⟨"forth", 0, 1, 600000000⟩, ⟨"back", 1, 0, 0⟩] [] []

def overflowSearch : EagerSearch ℕ Edge Unit (TieBreakingBuckets ℕ) :=
  greedySearch overflowTask
    { h := fun _ => 0
      costType := .normal
      bound := intMax
      reopenClosedNodes := true
      prefOnly := false
      llmTriggerMonitor := noRequests
      parseLlmResponseBody := fun _ => { valid := false, status := "", actionChains := [] } }

end Overflow

/-! ## Links whose sums fit -/

/-- Wherever the next step links a successor, the sum of the parent's `g` and the operator cost is an
integer that the bit-field holds. -/
def LinksExactly (search : EagerSearch S O M Q) (state : SearchState S O M Q) : Prop :=
  ∀ parent op, search.attempt state = some (parent, op) → search.Links state parent op →
    ∃ sum : ℕ, (state.nodes parent).g + search.task.cost op = sum ∧ sum < 2 ^ 29

def TracedControl (search : EagerSearch S O M Q) (nodes : SearchSpace S O) : Control S O → Prop
  | .tracePath goalState current path =>
    search.task.calculatePlanCost path + (nodes current).realG ≤ (nodes goalState).realG ∧
      (path = [] → current = goalState) ∧
      (path ≠ [] → (nodes goalState).creatingOperator ≠ none)
  | .finished _ plan _ => ∀ path, plan = some path → path ≠ [] →
    search.task.calculatePlanCost path < search.bound
  | _ => True

structure ExactRecords (search : EagerSearch S O M Q) (nodes : SearchSpace S O) : Prop where
  root : (nodes search.task.initialState).creatingOperator = none ∧
    (nodes search.task.initialState).g ≤ 0
  equal : ∀ id, search.IsLinked nodes id → (nodes id).realG = (nodes id).g ∧ 0 ≤ (nodes id).g
  bounded : ∀ id, (nodes id).creatingOperator ≠ none → (nodes id).realG < search.bound
  link : ∀ id parent, (nodes id).parentStateId = some parent →
    ∃ op, (nodes id).creatingOperator = some op ∧
      (nodes parent).g + search.task.cost op ≤ (nodes id).g
  tree : ∀ id, search.IsLinked nodes id →
    ReachesRoot (pointers nodes) search.task.initialState id

theorem adjustedCost_eq {op : O} (normal : search.costType = .normal)
    (member : op ∈ search.task.operators) :
    search.task.getAdjustedActionCost search.costType op = search.task.cost op := by
  simp [Task.getAdjustedActionCost, search.task.operators_not_axiom op member, normal]

/-- Both members of a linked record hold the exact sum. -/
theorem ExactRecords.stored {state : SearchState S O M Q} (normal : search.costType = .normal)
    (records : search.ExactRecords state.nodes) (wellFormed : search.WellFormed state)
    (condition : search.LinksExactly state) {parent : S} {op : O}
    (attempted : search.attempt state = some (parent, op)) (links : search.Links state parent op)
    (status : NodeStatus) :
    ((search.linkedInfo state parent op status).g : ℚ) =
        (state.nodes parent).g + search.task.cost op ∧
      (search.linkedInfo state parent op status).realG =
        (search.linkedInfo state parent op status).g := by
  obtain ⟨sum, sumDef, fits⟩ := condition parent op attempted links
  obtain ⟨linked, transition⟩ := wellFormed.attempt_transition attempted
  have converted : toInt ((sum : ℤ) : ℚ) = (sum : ℤ) := by
    apply toInt_of_mem
    · unfold intMin; omega
    · unfold intMax; omega
  have field : toBitField 30 (sum : ℤ) = sum := by
    apply toBitField_of_mem
    · push_cast; omega
    · push_cast; omega
  have gStored : (search.linkedInfo state parent op status).g = sum := by
    simp only [linkedInfo, SearchNodeInfo.childG, adjustedCost_eq normal transition.member, sumDef]
    rw [← Int.cast_natCast, converted, field]
  have realGStored : (search.linkedInfo state parent op status).realG = sum := by
    simp only [linkedInfo, SearchNodeInfo.childRealG, (records.equal parent linked).1, sumDef]
    rw [← Int.cast_natCast, converted]
  rw [realGStored, gStored, sumDef]
  exact ⟨by simp, rfl⟩

/-- The root is never linked. -/
theorem ExactRecords.target_ne_root {state : SearchState S O M Q}
    (nonneg : search.task.NonnegativeCosts) (records : search.ExactRecords state.nodes)
    (wellFormed : search.WellFormed state) {parent : S} {op : O}
    (attempted : search.attempt state = some (parent, op)) (links : search.Links state parent op) :
    search.task.getSuccessorState parent op ≠ search.task.initialState := by
  intro isRoot
  obtain ⟨linked, transition⟩ := wellFormed.attempt_transition attempted
  rcases links with opens | rewires
  · have isNew := opens.1
    rw [isRoot] at isNew
    exact wellFormed.graph.root parent linked isNew
  · have cheaper := rewires.2
    rw [isRoot] at cheaper
    have rootLow : ((state.nodes search.task.initialState).g : ℚ) ≤ 0 := by
      exact_mod_cast records.root.2
    have parentNonneg : (0 : ℚ) ≤ (state.nodes parent).g := by
      exact_mod_cast (records.equal parent linked).2
    have costNonneg :=
      search.task.getAdjustedActionCost_nonneg nonneg search.costType transition.member
    linarith

theorem ExactRecords.monotone {state : SearchState S O M Q}
    (nonneg : search.task.NonnegativeCosts) (wellFormed : search.WellFormed state) (records : search.ExactRecords state.nodes) (id above : S)
    (pointer : pointers state.nodes id = some above) :
    (state.nodes above).g ≤ (state.nodes id).g := by
  obtain ⟨op, created, grows⟩ := records.link id above pointer
  obtain ⟨_, _, _, transition⟩ := wellFormed.graph.link id op created
  have costNonneg := nonneg op transition.member
  have : ((state.nodes above).g : ℚ) ≤ (state.nodes id).g := by linarith
  exact_mod_cast this

theorem pointers_update (nodes : SearchSpace S O) (target : S) (info : SearchNodeInfo S O) :
    pointers (Function.update nodes target info) =
      Function.update (pointers nodes) target info.parentStateId := by
  funext id
  unfold pointers
  rw [Function.update_apply, Function.update_apply]
  split <;> rfl

/-- Redirecting the pointer of a linked or new successor keeps every chain to the root. -/
theorem ExactRecords.redirect {state : SearchState S O M Q}
    (nonneg : search.task.NonnegativeCosts) (records : search.ExactRecords state.nodes)
    (wellFormed : search.WellFormed state) {parent : S} {op : O}
    (attempted : search.attempt state = some (parent, op)) (links : search.Links state parent op)
    {id : S} (linked : search.IsLinked state.nodes id) :
    ReachesRoot (Function.update (pointers state.nodes) (search.task.getSuccessorState parent op)
      (some parent)) search.task.initialState id := by
  obtain ⟨parentLinked, transition⟩ := wellFormed.attempt_transition attempted
  have different := wellFormed.link_ne nonneg attempted links
  have monotone := records.monotone nonneg wellFormed
  rcases links with opens | rewires
  · -- A new successor lies on no chain, so its height may be chosen above its parent.
    have notCreated := wellFormed.graph.new _ opens.1
    have notLinked : ¬ search.IsLinked state.nodes (search.task.getSuccessorState parent op) := by
      rintro (⟨_, seen⟩ | created)
      · exact seen opens.1
      · exact created notCreated
    refine ReachesRoot.redirect
      (Function.update (fun node => (state.nodes node).g)
        (search.task.getSuccessorState parent op) ((state.nodes parent).g + 1)) ?_ ?_
      (records.tree parent parentLinked) (records.tree id linked)
    · intro node above pointer
      obtain ⟨creating, created, _⟩ := records.link node above pointer
      obtain ⟨linkedAbove, linkedPointer, aboveLinked, _⟩ :=
        wellFormed.graph.link node creating created
      obtain rfl : above = linkedAbove := Option.some.inj (pointer.symm.trans linkedPointer)
      have nodeOther : node ≠ search.task.getSuccessorState parent op := by
        rintro rfl
        rw [notCreated] at created
        cases created
      have aboveOther : above ≠ search.task.getSuccessorState parent op := by
        rintro rfl
        exact notLinked aboveLinked
      rw [Function.update_of_ne nodeOther, Function.update_of_ne aboveOther]
      exact monotone node above pointer
    · rw [Function.update_self, Function.update_of_ne different]
      exact lt_add_one _
  · refine ReachesRoot.redirect (fun node => (state.nodes node).g) monotone ?_
      (records.tree parent parentLinked) (records.tree id linked)
    have cheaper := rewires.2
    have costNonneg :=
      search.task.getAdjustedActionCost_nonneg nonneg search.costType transition.member
    have lower : ((state.nodes parent).g : ℚ) <
        (state.nodes (search.task.getSuccessorState parent op)).g := by linarith
    exact_mod_cast lower

/-! ## What a step keeps -/

theorem ExactRecords.step_link {state : SearchState S O M Q} (normal : search.costType = .normal)
    (nonneg : search.task.NonnegativeCosts) (records : search.ExactRecords state.nodes)
    (wellFormed : search.WellFormed state) (condition : search.LinksExactly state) {linkParent : S}
    {linkOp : O} (attempted : search.attempt state = some (linkParent, linkOp))
    (links : search.Links state linkParent linkOp) (status : NodeStatus) (id parent : S)
    (pointer : (Function.update state.nodes (search.task.getSuccessorState linkParent linkOp)
      (search.linkedInfo state linkParent linkOp status) id).parentStateId = some parent) :
    ∃ op, (Function.update state.nodes (search.task.getSuccessorState linkParent linkOp)
        (search.linkedInfo state linkParent linkOp status) id).creatingOperator = some op ∧
      ((Function.update state.nodes (search.task.getSuccessorState linkParent linkOp)
        (search.linkedInfo state linkParent linkOp status) parent).g : ℚ) + search.task.cost op ≤
        (Function.update state.nodes (search.task.getSuccessorState linkParent linkOp)
          (search.linkedInfo state linkParent linkOp status) id).g := by
  obtain ⟨stored, _⟩ := records.stored normal wellFormed condition attempted links status
  have different := wellFormed.link_ne nonneg attempted links
  by_cases isTarget : id = search.task.getSuccessorState linkParent linkOp
  · rw [isTarget, Function.update_self] at pointer ⊢
    obtain rfl : linkParent = parent := by simpa [linkedInfo] using pointer
    exact ⟨linkOp, rfl, by rw [Function.update_of_ne different, stored]⟩
  · rw [Function.update_of_ne isTarget] at pointer ⊢
    obtain ⟨op, created, grows⟩ := records.link id parent pointer
    refine ⟨op, created, ?_⟩
    by_cases parentIsTarget : parent = search.task.getSuccessorState linkParent linkOp
    · -- The rewired node only moved down, so its children stay above it.
      subst parentIsTarget
      rw [Function.update_self, stored]
      rcases links with opens | rewires
      · obtain ⟨linkedParent, linkedPointer, parentLinked, _⟩ :=
          wellFormed.graph.link id op created
        obtain rfl : search.task.getSuccessorState linkParent linkOp = linkedParent :=
          Option.some.inj (pointer.symm.trans linkedPointer)
        rcases parentLinked with ⟨_, seen⟩ | parentCreated
        · exact absurd opens.1 seen
        · exact absurd (wellFormed.graph.new _ opens.1) parentCreated
      · have cheaper := rewires.2
        rw [adjustedCost_eq normal (wellFormed.attempt_transition attempted).2.member] at cheaper
        linarith
    · rw [Function.update_of_ne parentIsTarget]
      exact grows

theorem pointers_same {before after : SearchSpace S O}
    (same : ∀ id, SameRecord (before id) (after id)) : pointers after = pointers before := by
  funext id
  exact (same id).parentStateId

theorem ExactRecords.step {state after : SearchState S O M Q} {input : SearchInput S}
    (normal : search.costType = .normal) (nonneg : search.task.NonnegativeCosts)
    (wellFormed : search.WellFormed state) (condition : search.LinksExactly state)
    (records : search.ExactRecords state.nodes) (step : search.Step input state after) :
    search.ExactRecords after.nodes := by
  have recordStep := wellFormed.recordStep step.nodeStep
  generalize after.nodes = nodes at recordStep ⊢
  cases recordStep with
  | same same linkedBefore =>
    constructor
    · rw [(same _).creatingOperator, (same _).g]
      exact records.root
    · intro id linked
      rw [(same id).realG, (same id).g]
      exact records.equal id (linkedBefore id linked)
    · intro id created
      rw [(same id).creatingOperator] at created
      rw [(same id).realG]
      exact records.bounded id created
    · intro id parent pointer
      rw [(same id).parentStateId] at pointer
      rw [(same id).creatingOperator, (same id).g, (same parent).g]
      exact records.link id parent pointer
    · intro id linked
      rw [pointers_same same]
      exact records.tree id (linkedBefore id linked)
  | openInitial control =>
    have fresh := wellFormed.fresh control
    have onlyRoot : ∀ id, search.IsLinked (Function.update state.nodes search.task.initialState
        (state.nodes search.task.initialState).openInitial) id → id = search.task.initialState := by
      intro id linked
      by_contra notRoot
      have before := (isLinked_update_of_ne notRoot).mp linked
      simp [IsLinked, fresh, SearchNodeInfo.unseen] at before
    constructor
    · simp [SearchNodeInfo.openInitial]
    · intro id linked
      rw [onlyRoot id linked]
      simp [SearchNodeInfo.openInitial]
    · intro id created
      rw [fresh, Function.update_apply] at created
      split at created <;> simp [SearchNodeInfo.openInitial, SearchNodeInfo.unseen] at created
    · intro id parent pointer
      rw [fresh, Function.update_apply] at pointer
      split at pointer <;> cases pointer
    · intro id linked
      rw [onlyRoot id linked]
      exact .root
  | link parent op status attempted links =>
    obtain ⟨stored, equal⟩ := records.stored normal wellFormed condition attempted links status
    have rootOther := records.target_ne_root nonneg wellFormed attempted links
    obtain ⟨parentLinked, transition⟩ := wellFormed.attempt_transition attempted
    have costNonneg := nonneg op transition.member
    constructor
    · rw [Function.update_of_ne rootOther.symm]
      exact records.root
    · intro id linked
      by_cases isTarget : id = search.task.getSuccessorState parent op
      · rw [isTarget, Function.update_self]
        refine ⟨equal, ?_⟩
        have parentNonneg : (0 : ℚ) ≤ (state.nodes parent).g := by
          exact_mod_cast (records.equal parent parentLinked).2
        have : (0 : ℚ) ≤ (search.linkedInfo state parent op status).g := by
          rw [stored]
          linarith
        exact_mod_cast this
      · rw [Function.update_of_ne isTarget]
        exact records.equal id ((isLinked_update_of_ne isTarget).mp linked)
    · intro id created
      by_cases isTarget : id = search.task.getSuccessorState parent op
      · rw [isTarget, Function.update_self, equal]
        have within := attempt_within attempted
        rw [(records.equal parent parentLinked).1, ← stored] at within
        exact_mod_cast within
      · rw [Function.update_of_ne isTarget] at created ⊢
        exact records.bounded id created
    · exact records.step_link normal nonneg wellFormed condition attempted links status
    · intro id linked
      rw [pointers_update]
      have redirect := fun {node : S} (nodeLinked : search.IsLinked state.nodes node) =>
        records.redirect nonneg wellFormed attempted links nodeLinked
      by_cases isTarget : id = search.task.getSuccessorState parent op
      · rw [isTarget]
        have redirected : Function.update (pointers state.nodes)
            (search.task.getSuccessorState parent op) (some parent)
            (search.task.getSuccessorState parent op) = some parent := Function.update_self ..
        exact .link redirected (redirect parentLinked)
      · exact redirect ((isLinked_update_of_ne isTarget).mp linked)

theorem TracedControl.step {state after : SearchState S O M Q} {input : SearchInput S}
    (wellFormed : search.WellFormed state) (records : search.ExactRecords state.nodes)
    (control : search.TracedControl state.nodes state.control)
    (step : search.Step input state after) : search.TracedControl after.nodes after.control := by
  have linkedControl := wellFormed.control
  cases step with
  | goalFound id controlDef _ =>
    exact ⟨by simp, fun _ => rfl, fun nonempty => absurd rfl nonempty⟩
  | planFound goalState current path controlDef created =>
    rw [controlDef] at control linkedControl
    obtain ⟨traced, _, goalCreated⟩ := control
    intro plan planDef nonempty
    obtain rfl : path = plan := by simpa using planDef
    have currentNonneg : (0 : ℚ) ≤ (state.nodes current).realG := by
      have currentRecord := records.equal current linkedControl.1
      rw [currentRecord.1]
      exact_mod_cast currentRecord.2
    have goalBounded : ((state.nodes goalState).realG : ℚ) < search.bound := by
      exact_mod_cast records.bounded goalState (goalCreated nonempty)
    linarith
  | pointerFollowed goalState current path op parent controlDef created pointer =>
    rw [controlDef] at control
    obtain ⟨traced, goalIsCurrent, goalCreated⟩ := control
    obtain ⟨linkOp, linkCreated, grows⟩ := records.link current parent pointer
    obtain rfl : op = linkOp := Option.some.inj (created.symm.trans linkCreated)
    have parentLinked : search.IsLinked state.nodes parent := by
      obtain ⟨linkedParent, linkedPointer, parentLinked, _⟩ :=
        wellFormed.graph.link current op created
      rwa [Option.some.inj (pointer.symm.trans linkedPointer)]
    have realGrows : ((state.nodes parent).realG : ℚ) + search.task.cost op ≤
        (state.nodes current).realG := by
      rw [(records.equal parent parentLinked).1, (records.equal current (.inr (by simp [created]))).1]
      exact grows
    refine ⟨?_, by simp, fun _ => ?_⟩
    · rw [Task.calculatePlanCost_cons]
      linarith
    · cases path with
      | nil =>
        rw [← goalIsCurrent rfl, created]
        simp
      | cons head tail => exact goalCreated (by simp)
  | fails _ _ _ =>
    intro path planDef
    cases planDef
  | pointerMissing _ _ _ _ _ _ _ => exact control
  | halted _ _ _ _ => exact control
  | _ => trivial

/-! ## The graph is sound -/

theorem ExactRecords.traces {state : SearchState S O M Q} (wellFormed : search.WellFormed state)
    (records : search.ExactRecords state.nodes) {id : S} (linked : search.IsLinked state.nodes id)
    (reaches : ReachesRoot (pointers state.nodes) search.task.initialState id) :
    ∃ path, Traces state.nodes id path ∧
      search.task.Executes search.task.initialState path id ∧
      search.task.calculatePlanCost path ≤ (state.nodes id).realG := by
  induction reaches with
  | root =>
    refine ⟨[], .root records.root.1, .nil _, ?_⟩
    have rootRecord := records.equal _ linked
    rw [rootRecord.1, Task.calculatePlanCost_nil]
    exact_mod_cast rootRecord.2
  | @link id above pointer _ inductionHypothesis =>
    obtain ⟨op, created, grows⟩ := records.link id above pointer
    obtain ⟨parent, parentPointer, aboveLinked, transition⟩ := wellFormed.graph.link id op created
    obtain rfl : above = parent := Option.some.inj (pointer.symm.trans parentPointer)
    obtain ⟨path, traced, executes, cost⟩ := inductionHypothesis aboveLinked
    refine ⟨path ++ [op], .link created pointer traced, executes.snoc transition, ?_⟩
    · rw [(records.equal above aboveLinked).1] at cost
      rw [(records.equal id linked).1]
      simp only [Task.calculatePlanCost_append, Task.calculatePlanCost_cons,
        Task.calculatePlanCost_nil]
      linarith

theorem ExactRecords.soundGraph {state : SearchState S O M Q} (wellFormed : search.WellFormed state)
    (records : search.ExactRecords state.nodes) : search.SoundGraph state.nodes where
  root := by
    cases pointer : (state.nodes search.task.initialState).parentStateId with
    | none => rfl
    | some parent =>
      obtain ⟨op, created, _⟩ := records.link _ parent pointer
      rw [records.root.1] at created
      cases created
  tree := fun id visited => records.tree id (wellFormed.graph.visited id visited)
  link := fun id op _ created => by
    obtain ⟨parent, pointer, _, transition⟩ := wellFormed.graph.link id op created
    exact ⟨parent, pointer, transition⟩
  traced := fun id visited =>
    have linked := wellFormed.graph.visited id visited
    records.traces wellFormed linked (records.tree id linked)

end EagerSearch

end CutPlan.Search
