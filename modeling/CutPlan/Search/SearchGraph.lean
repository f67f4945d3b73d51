import CutPlan.Search.NodeStep

set_option linter.unusedSectionVars false

/-! # The search graph

The well-formedness that every reachable state of the search has, whatever the numbers stored in the
nodes are: parent pointers are transitions of the task, and every state the search still holds
(entries, requests, the program point) has its place in the graph.
-/

namespace CutPlan.Search

open CutPlan.Lib

namespace EagerSearch

variable {S O M Q : Type} [DecidableEq S] [DecidableEq O] (search : EagerSearch S O M Q)

/-! ## Invariants -/

/-- The state is the root of the graph or was created by an operator. -/
def IsLinked (nodes : SearchSpace S O) (id : S) : Prop :=
  (id = search.task.initialState ∧ (nodes id).status ≠ .new) ∨ (nodes id).creatingOperator ≠ none

def IsVisited (nodes : SearchSpace S O) (id : S) : Prop :=
  (nodes id).status = .opened ∨ (nodes id).status = .closed

structure LinkedGraph (nodes : SearchSpace S O) : Prop where
  new : ∀ id, (nodes id).status = .new → (nodes id).creatingOperator = none
  root : ∀ id, search.IsLinked nodes id → (nodes search.task.initialState).status ≠ .new
  visited : ∀ id, IsVisited nodes id → search.IsLinked nodes id
  link : ∀ id op, (nodes id).creatingOperator = some op →
    ∃ parent, (nodes id).parentStateId = some parent ∧ search.IsLinked nodes parent ∧
      search.task.Transition parent op id

def LinkedControl (nodes : SearchSpace S O) : Control S O → Prop
  | .beforeSearch => True
  | .pollBridge _ => True
  | .processResponses responses _ => ∀ response ∈ responses, search.IsLinked nodes response.stateId
  | .injectChains injection responses _ =>
    search.IsLinked nodes injection.sourceId ∧ search.IsLinked nodes injection.currentState ∧
      ∀ response ∈ responses, search.IsLinked nodes response.stateId
  | .fetchNextNode => True
  | .checkGoal id => search.IsLinked nodes id
  | .expand id _ ops =>
    search.IsLinked nodes id ∧
      ∀ op ∈ ops, op ∈ search.task.operators ∧ search.task.isApplicable op id = true
  | .tracePath goalState current path =>
    search.IsLinked nodes current ∧ search.task.testGoal goalState = true ∧
      search.task.Executes current path goalState
  | .finished _ plan _ => ∀ path, plan = some path →
    ∃ goalState, search.task.testGoal goalState = true ∧
      search.task.Executes search.task.initialState path goalState

/-- All states of the set have their place in the graph. -/
def AllLinked (nodes : SearchSpace S O) (states : Set S) : Prop :=
  ∀ id ∈ states, search.IsLinked nodes id

structure WellFormed (state : SearchState S O M Q) : Prop where
  fresh : state.control = .beforeSearch → state.nodes = fun _ => .unseen
  graph : search.LinkedGraph state.nodes
  entries : search.AllLinked state.nodes { id | id ∈ search.openList.entries state.openList }
  recorded : search.AllLinked state.nodes { id | id ∈ state.monitor.recorded }
  pending : search.AllLinked state.nodes { id | id ∈ state.monitor.pendingStates }
  control : search.LinkedControl state.nodes state.control

/-! ## The graph -/

variable {search}

theorem selectOperator_transition {state : SearchState S O M Q} {current : S} {action : String}
    {op : O} (selected : search.selectOperator state current action = some op) :
    search.task.Transition current op (search.task.getSuccessorState current op) := by
  unfold selectOperator at selected
  split at selected
  · cases selected
  · cases selected
  next found resolution =>
    split at selected
    · cases selected
    · cases selected
      obtain ⟨member, applicable⟩ := Task.resolveAction_found resolution
      exact ⟨member, applicable, rfl⟩

theorem WellFormed.attempt_transition {state : SearchState S O M Q}
    (wellFormed : search.WellFormed state) {parent : S} {op : O}
    (attempted : search.attempt state = some (parent, op)) :
    search.IsLinked state.nodes parent ∧
      search.task.Transition parent op (search.task.getSuccessorState parent op) := by
  have linkedControl := wellFormed.control
  unfold attempt at attempted
  split at attempted
  next control =>
    rw [control] at linkedControl
    obtain ⟨linked, sound⟩ := linkedControl
    split at attempted
    · cases attempted
    · cases attempted
      obtain ⟨member, applicable⟩ := sound _ List.mem_cons_self
      exact ⟨linked, member, applicable, rfl⟩
  next injection responses site control =>
    rw [control] at linkedControl
    obtain ⟨_, linked, _⟩ := linkedControl
    split at attempted
    next action actions actionsDef =>
      rw [Option.map_eq_some_iff] at attempted
      obtain ⟨selected, selection, pair⟩ := attempted
      cases pair
      exact ⟨linked, selectOperator_transition selection⟩
    · cases attempted
  next => cases attempted

theorem attempt_within {state : SearchState S O M Q} {parent : S} {op : O}
    (attempted : search.attempt state = some (parent, op)) :
    (state.nodes parent).realG + search.task.cost op < search.bound := by
  have within : search.exceedsBound (state.nodes parent) op = false := by
    unfold attempt at attempted
    split at attempted
    · split at attempted
      · cases attempted
      next within =>
        cases attempted
        simpa using within
    · split at attempted
      · obtain ⟨selected, selection, pair⟩ := Option.map_eq_some_iff.mp attempted
        cases pair
        unfold selectOperator at selection
        split at selection
        · cases selection
        · cases selection
        · split at selection
          · cases selection
          next passes =>
            cases selection
            simp only [Bool.or_eq_true, not_or, Bool.not_eq_true] at passes
            exact passes.2
      · cases attempted
    · cases attempted
  simpa [exceedsBound, reachesBound] using within

/-- The parent of a link is another node than the successor. -/
theorem WellFormed.link_ne {state : SearchState S O M Q} (wellFormed : search.WellFormed state)
    (nonneg : search.task.NonnegativeCosts) {parent : S} {op : O}
    (attempted : search.attempt state = some (parent, op))
    (links : search.Links state parent op) :
    parent ≠ search.task.getSuccessorState parent op := by
  intro same
  obtain ⟨linked, transition⟩ := wellFormed.attempt_transition attempted
  rcases links with opens | rewires
  · have isNew := opens.1
    rw [← same] at isNew
    rcases linked with ⟨_, seen⟩ | created
    · exact seen isNew
    · exact created (wellFormed.graph.new parent isNew)
  · have cheaper := rewires.2
    rw [← same] at cheaper
    have costNonneg :=
      search.task.getAdjustedActionCost_nonneg nonneg search.costType transition.member
    linarith

theorem NodeStep.status_ne_new {state : SearchState S O M Q} {nodes : SearchSpace S O}
    (step : search.NodeStep state nodes) {id : S} (seen : (state.nodes id).status ≠ .new) :
    (nodes id).status ≠ .new := by
  cases step with
  | unchanged => exact seen
  | openInitial _ _ =>
    by_cases same : id = search.task.initialState
    · simp [same, SearchNodeInfo.openInitial]
    · rwa [Function.update_of_ne same]
  | close target _ | revisitedDeadEnd target _ =>
    by_cases same : id = target
    · simp [same, SearchNodeInfo.close, SearchNodeInfo.markAsDeadEnd]
    · rwa [Function.update_of_ne same]
  | newDeadEnd parent op _ _ =>
    by_cases same : id = search.task.getSuccessorState parent op
    · simp [same, SearchNodeInfo.markAsDeadEnd]
    · rwa [Function.update_of_ne same]
  | link parent op status _ _ statusCases =>
    by_cases same : id = search.task.getSuccessorState parent op
    · rcases statusCases with rfl | rfl <;> simp [same, linkedInfo]
    · rwa [Function.update_of_ne same]

theorem NodeStep.linked_mono {state : SearchState S O M Q} {nodes : SearchSpace S O}
    (step : search.NodeStep state nodes) (id : S) (linked : search.IsLinked state.nodes id) :
    search.IsLinked nodes id := by
  rcases linked with ⟨isRoot, seen⟩ | created
  · exact .inl ⟨isRoot, step.status_ne_new seen⟩
  · cases step with
    | unchanged => exact .inr created
    | openInitial _ _ =>
      by_cases same : id = search.task.initialState
      · exact .inl ⟨same, by simp [same, SearchNodeInfo.openInitial]⟩
      · exact .inr (by rwa [Function.update_of_ne same])
    | close target _ | revisitedDeadEnd target _ =>
      refine .inr ?_
      by_cases same : id = target
      · subst same
        simpa [SearchNodeInfo.close, SearchNodeInfo.markAsDeadEnd] using created
      · rwa [Function.update_of_ne same]
    | newDeadEnd parent op _ _ =>
      refine .inr ?_
      by_cases same : id = search.task.getSuccessorState parent op
      · subst same
        simpa [SearchNodeInfo.markAsDeadEnd] using created
      · rwa [Function.update_of_ne same]
    | link parent op status _ _ _ =>
      refine .inr ?_
      by_cases same : id = search.task.getSuccessorState parent op
      · subst same
        simp [linkedInfo]
      · rwa [Function.update_of_ne same]

theorem ClosesNext.mem_entries {state : SearchState S O M Q} {id : S}
    (closes : search.ClosesNext state id) : id ∈ search.openList.entries state.openList := by
  obtain ⟨_, key, rest, removed, _⟩ := closes
  rw [search.openList.removeMin_entries removed]
  exact Multiset.mem_cons_self _ _

theorem isLinked_update_of_ne {nodes : SearchSpace S O} {target id : S} {info : SearchNodeInfo S O}
    (different : id ≠ target) :
    search.IsLinked (Function.update nodes target info) id ↔ search.IsLinked nodes id := by
  simp only [IsLinked, Function.update_of_ne different]

variable (search) in
/-- Apart from the status a step changes a record only when the search starts or when it links, and
no other step gives a node its place. -/
inductive RecordStep (state : SearchState S O M Q) : SearchSpace S O → Prop where
  | same {nodes : SearchSpace S O} : (∀ id, SameRecord (state.nodes id) (nodes id)) →
      (∀ id, search.IsLinked nodes id → search.IsLinked state.nodes id) → RecordStep state nodes
  | openInitial : state.control = .beforeSearch →
      RecordStep state (Function.update state.nodes search.task.initialState
        (state.nodes search.task.initialState).openInitial)
  | link (parent : S) (op : O) (status : NodeStatus) :
      search.attempt state = some (parent, op) → search.Links state parent op →
      RecordStep state (Function.update state.nodes (search.task.getSuccessorState parent op)
        (search.linkedInfo state parent op status))

theorem WellFormed.linked_of_updateStatus {state : SearchState S O M Q}
    {target id : S} {status : NodeStatus}
    (known : search.IsLinked state.nodes target ∨
      (state.nodes search.task.initialState).status ≠ .new)
    (linked : search.IsLinked
      (Function.update state.nodes target { state.nodes target with status := status }) id) :
    search.IsLinked state.nodes id := by
  by_cases same : id = target
  · subst same
    rcases linked with ⟨isRoot, _⟩ | created
    · rcases known with before | rootSeen
      · exact before
      · exact .inl ⟨isRoot, isRoot ▸ rootSeen⟩
    · exact .inr (by simpa using created)
  · exact (isLinked_update_of_ne same).mp linked

theorem WellFormed.recordStep {state : SearchState S O M Q} {nodes : SearchSpace S O}
    (wellFormed : search.WellFormed state) (step : search.NodeStep state nodes) :
    search.RecordStep state nodes := by
  cases step with
  | unchanged => exact .same (fun id => .refl _) (fun id linked => linked)
  | openInitial control _ => exact .openInitial control
  | close target closes =>
    exact .same (sameRecord_update _ _ _) fun id linked =>
      WellFormed.linked_of_updateStatus (.inl (wellFormed.entries target closes.mem_entries)) linked
  | revisitedDeadEnd target revisits =>
    refine .same (sameRecord_update _ _ _) fun id linked =>
      WellFormed.linked_of_updateStatus (.inl ?_) linked
    rcases revisits with isOpen | ⟨_, _, entry⟩
    · exact wellFormed.graph.visited target (.inl isOpen)
    · exact wellFormed.entries target entry
  | newDeadEnd parent op attempted _ =>
    have rootSeen := wellFormed.graph.root parent (wellFormed.attempt_transition attempted).1
    exact .same (sameRecord_update _ _ _) fun id linked =>
      WellFormed.linked_of_updateStatus (.inr rootSeen) linked
  | link parent op status attempted links _ => exact .link parent op status attempted links

/-- Replacing one record keeps the graph linked if the new record has its place. -/
theorem LinkedGraph.update {nodes : SearchSpace S O} (graph : search.LinkedGraph nodes) {target : S}
    {info : SearchNodeInfo S O}
    (monotone : ∀ id, search.IsLinked nodes id →
      search.IsLinked (Function.update nodes target info) id)
    (seen : info.status ≠ .new)
    (root : (Function.update nodes target info search.task.initialState).status = .new →
      info.creatingOperator = none)
    (visited : info.status = .opened ∨ info.status = .closed →
      search.IsLinked (Function.update nodes target info) target)
    (link : ∀ op, info.creatingOperator = some op → ∃ parent, info.parentStateId = some parent ∧
      search.IsLinked nodes parent ∧ search.task.Transition parent op target) :
    search.LinkedGraph (Function.update nodes target info) where
  new := by
    intro id isNew
    by_cases same : id = target
    · subst same
      rw [Function.update_self] at isNew
      exact absurd isNew seen
    · rw [Function.update_of_ne same] at isNew ⊢
      exact graph.new id isNew
  root := by
    intro id linked rootNew
    rcases linked with ⟨rfl, idSeen⟩ | created
    · exact idSeen rootNew
    · by_cases same : id = target
      · subst same
        rw [Function.update_self] at created
        exact created (root rootNew)
      · rw [Function.update_of_ne same] at created
        have rootSeen := graph.root id (.inr created)
        rw [Function.update_apply] at rootNew
        split at rootNew
        next => exact seen rootNew
        next => exact rootSeen rootNew
  visited := by
    intro id visitedId
    by_cases same : id = target
    · subst same
      rw [IsVisited, Function.update_self] at visitedId
      exact visited visitedId
    · rw [IsVisited, Function.update_of_ne same] at visitedId
      exact monotone id (graph.visited id visitedId)
  link := by
    intro id op created
    by_cases same : id = target
    · subst same
      rw [Function.update_self] at created ⊢
      obtain ⟨parent, pointer, linked, transition⟩ := link op created
      exact ⟨parent, pointer, monotone parent linked, transition⟩
    · rw [Function.update_of_ne same] at created ⊢
      obtain ⟨parent, pointer, linked, transition⟩ := graph.link id op created
      exact ⟨parent, pointer, monotone parent linked, transition⟩

/-- Changing the status of a linked or new node keeps the graph linked. -/
theorem LinkedGraph.updateStatus {nodes : SearchSpace S O} (graph : search.LinkedGraph nodes)
    {target : S} {status : NodeStatus}
    (monotone : ∀ id, search.IsLinked nodes id →
      search.IsLinked (Function.update nodes target { nodes target with status := status }) id)
    (seen : status ≠ .new)
    (visited : status = .opened ∨ status = .closed → search.IsLinked nodes target) :
    search.LinkedGraph (Function.update nodes target { nodes target with status := status }) := by
  refine graph.update monotone seen ?_ (fun isVisited => monotone target (visited isVisited))
    (graph.link target)
  intro rootNew
  by_contra created
  have rootSeen := graph.root target (.inr created)
  rw [Function.update_apply] at rootNew
  split at rootNew
  next => exact seen rootNew
  next => exact rootSeen rootNew

theorem WellFormed.step_graph {state after : SearchState S O M Q} {input : SearchInput S}
    (wellFormed : search.WellFormed state) (step : search.Step input state after) :
    search.LinkedGraph after.nodes := by
  have nodeStep := step.nodeStep
  have monotone := nodeStep.linked_mono
  have graph := wellFormed.graph
  generalize after.nodes = nodes at nodeStep monotone ⊢
  cases nodeStep with
  | unchanged => exact graph
  | openInitial _ _ =>
    refine graph.update monotone (by simp [SearchNodeInfo.openInitial]) (fun _ => rfl)
      (fun _ => .inl ⟨rfl, by simp [SearchNodeInfo.openInitial]⟩) ?_
    simp [SearchNodeInfo.openInitial]
  | close target closes =>
    exact graph.updateStatus monotone (by simp)
      (fun _ => wellFormed.entries target closes.mem_entries)
  | revisitedDeadEnd target _ => exact graph.updateStatus monotone (by simp) (by simp)
  | newDeadEnd parent op _ _ => exact graph.updateStatus monotone (by simp) (by simp)
  | link parent op status attempted _ statusCases =>
    obtain ⟨linked, transition⟩ := wellFormed.attempt_transition attempted
    have seen : status ≠ .new := by rcases statusCases with rfl | rfl <;> simp
    refine graph.update monotone seen ?_ (fun _ => .inr (by simp [linkedInfo])) ?_
    · intro rootNew
      have rootSeen := graph.root parent linked
      rw [Function.update_apply] at rootNew
      split at rootNew
      next => exact absurd rootNew seen
      next => exact absurd rootNew rootSeen
    · intro created createdDef
      obtain rfl : op = created := by simpa [linkedInfo] using createdDef
      exact ⟨parent, rfl, linked, transition⟩

/-! ## Entries -/

theorem SuccessorOutcome.entries {isPreferred : Bool} {state after : SearchState S O M Q}
    {parent : S} {op : O} (outcome : search.SuccessorOutcome isPreferred state parent op after)
    {id : S} (present : id ∈ search.openList.entries after.openList) :
    id ∈ search.openList.entries state.openList ∨ search.IsLinked after.nodes id := by
  cases outcome with
  | knownDeadEnd => exact .inl present
  | notCheaper _ => exact .inl present
  | newDeadEnd _ => exact .inl present
  | opened _ =>
    rw [rewardProgress_entries] at present
    rcases OpenList.of_mem_insert present with old | rfl
    · exact .inl old
    · exact .inr (.inr (by simp [newContext, linkedInfo]))
  | reopened _ _ =>
    rcases OpenList.of_mem_insert present with old | rfl
    · exact .inl old
    · exact .inr (.inr (by simp [reopenContext, linkedInfo]))
  | parentUpdated _ _ => exact .inl present

theorem mem_of_mem_rest {queue rest : Q} {id other : S} {key : Key}
    (removed : search.openList.removeMin queue = some (id, key, rest))
    (present : other ∈ search.openList.entries rest) : other ∈ search.openList.entries queue := by
  rw [search.openList.removeMin_entries removed]
  exact Multiset.mem_cons_of_mem present

theorem mem_of_removed {queue rest : Q} {id : S} {key : Key}
    (removed : search.openList.removeMin queue = some (id, key, rest)) :
    id ∈ search.openList.entries queue := by
  rw [search.openList.removeMin_entries removed]
  exact Multiset.mem_cons_self _ _

theorem WellFormed.step_entries {state after : SearchState S O M Q} {input : SearchInput S}
    (wellFormed : search.WellFormed state) (step : search.Step input state after) :
    search.AllLinked after.nodes { id | id ∈ search.openList.entries after.openList } := by
  intro id present
  rw [Set.mem_ofPred_eq] at present
  have monotone := step.nodeStep.linked_mono id
  suffices source : id ∈ search.openList.entries state.openList ∨
      search.IsLinked after.nodes id by
    rcases source with old | linked
    · exact monotone (wellFormed.entries id old)
    · exact linked
  cases step with
  | initialOpened _ _ _ =>
    rcases OpenList.of_mem_insert present with old | isRoot
    · exact .inl old
    · exact .inr (.inl ⟨isRoot, by simp [isRoot, SearchNodeInfo.openInitial]⟩)
  | actionIntoDeadEnd _ _ _ _ _ _ _ _ _ _ outcome _ => exact outcome.entries present
  | actionApplied _ _ _ _ _ _ _ _ _ _ outcome _ => exact outcome.entries present
  | operatorApplied _ _ _ _ _ _ _ outcome => exact outcome.entries present
  | sourceRequeued injection _ _ control _ _ _ =>
    rcases OpenList.of_mem_insert present with old | isSource
    · exact .inl old
    · have linkedControl := wellFormed.control
      rw [control] at linkedControl
      exact .inr (isSource ▸ linkedControl.1)
  | discarded _ _ _ _ removed _ | suspended _ _ _ _ removed _ | entryDeadEnd _ _ _ _ removed _
  | closed _ _ _ _ removed _ => exact .inl (mem_of_mem_rest removed present)
  | reinserted _ _ _ _ removed _ =>
    rcases OpenList.of_mem_insert present with old | rfl
    · exact .inl (mem_of_mem_rest removed old)
    · exact .inl (mem_of_removed removed)
  | _ => exact .inl present

/-! ## Requests -/

/-- The states the monitor may ask for or waits for. -/
def monitored (monitor : LlmTriggerMonitor S) : Set S :=
  { id | id ∈ monitor.recorded ∨ id ∈ monitor.pendingStates }

theorem monitored_requestStates {options : LlmMonitorOptions} {monitor : LlmTriggerMonitor S}
    {admissible : Finset S} {states : Set S} (decisions : List S)
    (allowed : ∀ id ∈ admissible, id ∈ states) (known : monitored monitor ⊆ states) :
    monitored (monitor.requestStates options admissible decisions) ⊆ states := by
  refine LlmTriggerMonitor.requestStates_invariant options monitor
    (fun next => monitored next ⊆ states) ?_ decisions known
  intro next requested member below id present
  unfold LlmTriggerMonitor.requestState at present
  split at present
  · exact below present
  · split at present
    · exact below present
    · rcases present with recorded | pending
      · exact below (.inl recorded)
      · simp only at pending
        split at pending
        · rcases Finset.mem_insert.mp pending with rfl | old
          · exact allowed id member
          · exact below (.inr old)
        · exact below (.inr pending)

theorem monitored_pollBridge (monitor : LlmTriggerMonitor S) (completed : List (LlmResponse S)) :
    monitored (monitor.pollBridge completed).2 ⊆ monitored monitor := by
  rintro id (recorded | pending)
  · exact .inl (by rwa [monitor.pollBridge_recorded] at recorded)
  · exact .inr (monitor.pollBridge_pending_subset completed pending)

theorem recordExpanded_monitored (options : LlmMonitorOptions) (monitor : LlmTriggerMonitor S)
    (id : S) : monitored (monitor.recordExpanded options id) ⊆ insert id (monitored monitor) := by
  intro other present
  unfold LlmTriggerMonitor.recordExpanded at present
  split at present
  · rcases present with recorded | pending
    · rcases Finset.mem_insert.mp recorded with rfl | old
      · exact .inl rfl
      · exact .inr (.inl old)
    · exact .inr (.inr pending)
  · exact .inr present

/-- Only the opened initial state and entries of the open list become known to the monitor. -/
theorem Step.monitored {state after : SearchState S O M Q} {input : SearchInput S}
    (step : search.Step input state after) :
    monitored after.monitor ⊆
      { id | id = search.task.initialState ∧ (after.nodes id).status ≠ .new } ∪
        (monitored state.monitor ∪ { id | id ∈ search.openList.entries state.openList }) := by
  have before : EagerSearch.monitored state.monitor ⊆
      { id | id = search.task.initialState ∧ (after.nodes id).status ≠ .new } ∪
        (EagerSearch.monitored state.monitor ∪
          { id | id ∈ search.openList.entries state.openList }) :=
    Set.subset_union_left.trans Set.subset_union_right
  cases step with
  | initialOpened _ _ _ =>
    refine monitored_requestStates _ ?_ before
    intro id member
    obtain rfl := Finset.mem_singleton.mp member
    exact .inl ⟨rfl, by simp [SearchNodeInfo.openInitial]⟩
  | polled _ _ => exact (monitored_pollBridge _ _).trans before
  | planFound _ _ _ _ _ => exact (monitored_pollBridge _ _).trans before
  | closed id key rest _ removed _ =>
    have recorded := (recordExpanded_monitored search.llmTriggerMonitor state.monitor id).trans
      (Set.insert_subset_iff.mpr ⟨.inr (.inr (mem_of_removed removed)), before⟩)
    exact monitored_requestStates _ (fun other member => recorded (.inl member)) recorded
  | actionIntoDeadEnd _ _ _ _ _ _ _ _ _ _ outcome _
  | actionApplied _ _ _ _ _ _ _ _ _ _ outcome _ | operatorApplied _ _ _ _ _ _ _ outcome =>
    simp only [outcome.monitor]
    exact before
  | _ => exact before

theorem WellFormed.step_monitored {state after : SearchState S O M Q} {input : SearchInput S}
    (wellFormed : search.WellFormed state) (step : search.Step input state after) :
    search.AllLinked after.nodes (monitored after.monitor) := by
  intro id present
  have monotone := step.nodeStep.linked_mono id
  rcases step.monitored present with isRoot | (recorded | pending) | entry
  · exact .inl isRoot
  · exact monotone (wellFormed.recorded id recorded)
  · exact monotone (wellFormed.pending id pending)
  · exact monotone (wellFormed.entries id entry)

/-! ## The program point -/

theorem LinkedControl.mono {before after : SearchSpace S O}
    (monotone : ∀ id, search.IsLinked before id → search.IsLinked after id)
    {control : Control S O} (linked : search.LinkedControl before control) :
    search.LinkedControl after control := by
  cases control with
  | beforeSearch | pollBridge | fetchNextNode => trivial
  | processResponses responses site =>
    exact fun response member => monotone _ (linked response member)
  | injectChains injection responses site =>
    obtain ⟨source, current, remaining⟩ := linked
    exact ⟨monotone _ source, monotone _ current,
      fun response member => monotone _ (remaining response member)⟩
  | checkGoal id => exact monotone _ linked
  | expand id preferredOps ops => exact ⟨monotone _ linked.1, linked.2⟩
  | tracePath goalState current path => exact ⟨monotone _ linked.1, linked.2⟩
  | finished status plan lastPoll => exact linked

/-- After an application the successor is visited unless it is a dead end. -/
theorem SuccessorOutcome.successor_visited {isPreferred : Bool} {state after : SearchState S O M Q}
    {parent : S} {op : O} (outcome : search.SuccessorOutcome isPreferred state parent op after)
    (alive : (after.nodes (search.task.getSuccessorState parent op)).isDeadEnd = false) :
    IsVisited after.nodes (search.task.getSuccessorState parent op) := by
  cases outcome with
  | knownDeadEnd dead => simp [SearchNodeInfo.isDeadEnd, dead] at alive
  | notCheaper visited => exact visited
  | newDeadEnd _ => simp [SearchNodeInfo.isDeadEnd, SearchNodeInfo.markAsDeadEnd] at alive
  | opened _ => simp [IsVisited, linkedInfo]
  | reopened _ _ => simp [IsVisited, linkedInfo]
  | parentUpdated rewires _ => simpa [IsVisited, linkedInfo] using rewires.1

theorem WellFormed.step_control {state after : SearchState S O M Q} {input : SearchInput S}
    (wellFormed : search.WellFormed state) (step : search.Step input state after) :
    search.LinkedControl after.nodes after.control := by
  have monotone := step.nodeStep.linked_mono
  have graph := wellFormed.step_graph step
  have linked := wellFormed.control.mono monotone
  cases step with
  | initialDeadEnd _ _ | initialOpened _ _ _ | loopHeadPollEnds _ | endOfStepPollEnds _
  | waits _ _ _ | discarded _ _ _ _ _ _ | suspended _ _ _ _ _ _ | entryDeadEnd _ _ _ _ _ _
  | reinserted _ _ _ _ _ _ | expansionEnds _ _ _ => trivial
  | polled site control =>
    intro response delivered
    exact wellFormed.pending _ (state.monitor.pending_of_polled input.completed delivered).1
  | responseTaken response responses site control =>
    rw [control] at linked
    obtain ⟨head, remaining⟩ := List.forall_mem_cons.mp linked
    exact ⟨head, head, remaining⟩
  | chainStarts injection responses site chain chains control actionsDef chainsDef =>
    rw [control] at linked
    exact ⟨linked.1, linked.1, linked.2.2⟩
  | actionBlocked injection responses site action actions control _ _ =>
    rw [control] at linked
    exact linked
  | actionIntoDeadEnd injection responses site action actions op generated control _ _ _ _ =>
    rw [control] at linked
    exact linked
  | actionApplied injection responses site action actions op generated control _ _ outcome alive =>
    rw [control] at linked
    exact ⟨linked.1, graph.visited _ (outcome.successor_visited alive), linked.2.2⟩
  | injectionEnds injection responses site control _ =>
    rw [control] at linked
    exact linked.2.2
  | sourceDeadEnd injection responses site control _ _ _ =>
    rw [control] at linked
    exact linked.2.2
  | sourceRequeued injection responses site control _ _ _ =>
    rw [control] at linked
    exact linked.2.2
  | fails _ _ _ =>
    intro path planDef
    cases planDef
  | closed id key rest control removed verdict =>
    exact monotone id (wellFormed.entries id (mem_of_removed removed))
  | goalFound id control goal =>
    rw [control] at linked
    exact ⟨linked, goal, .nil id⟩
  | expansionStarts id preferredOps control _ =>
    rw [control] at linked
    refine ⟨linked, fun op member => ?_⟩
    exact search.generateApplicableOps_sound (search.pruneOperators_subset _ _ member)
  | operatorRejected id preferredOps op ops control _ =>
    rw [control] at linked
    exact ⟨linked.1, fun later member => linked.2 later (List.mem_cons_of_mem _ member)⟩
  | operatorApplied id preferredOps op ops generated control _ _ =>
    rw [control] at linked
    exact ⟨linked.1, fun later member => linked.2 later (List.mem_cons_of_mem _ member)⟩
  | planFound goalState current path control created =>
    rw [control] at linked
    obtain ⟨currentLinked, goal, executes⟩ := linked
    intro plan planDef
    obtain rfl : path = plan := by simpa using planDef
    rcases currentLinked with ⟨isRoot, _⟩ | notRoot
    · exact ⟨goalState, goal, isRoot ▸ executes⟩
    · exact absurd created notRoot
  | pointerFollowed goalState current path op parent control created pointer =>
    rw [control] at linked
    obtain ⟨_, goal, executes⟩ := linked
    obtain ⟨linkedParent, linkedPointer, parentLinked, transition⟩ :=
      wellFormed.graph.link current op created
    obtain rfl : parent = linkedParent := by
      rw [pointer] at linkedPointer
      exact Option.some.inj linkedPointer
    exact ⟨parentLinked, goal, .cons transition executes⟩
  | pointerMissing _ _ _ _ _ _ _ => exact linked
  | halted _ _ _ _ => exact linked

/-! ## Runs -/

theorem Step.control_ne_beforeSearch {state after : SearchState S O M Q} {input : SearchInput S}
    (step : search.Step input state after) : after.control ≠ .beforeSearch := by
  cases step with
  | pointerMissing _ _ _ _ control _ _ => simp [control]
  | halted _ _ _ control => simp [control]
  | _ => simp

theorem WellFormed.step {state after : SearchState S O M Q} {input : SearchInput S}
    (wellFormed : search.WellFormed state) (step : search.Step input state after) :
    search.WellFormed after where
  fresh := fun control => absurd control step.control_ne_beforeSearch
  graph := wellFormed.step_graph step
  entries := wellFormed.step_entries step
  recorded := fun id member => wellFormed.step_monitored step id (.inl member)
  pending := fun id member => wellFormed.step_monitored step id (.inr member)
  control := wellFormed.step_control step

variable (search)

theorem start_wellFormed : search.WellFormed search.start where
  fresh := fun _ => rfl
  graph := {
    new := fun id _ => rfl
    root := fun id linked => by simp [IsLinked, start, SearchNodeInfo.unseen] at linked
    visited := fun id visited => by simp [IsVisited, start, SearchNodeInfo.unseen] at visited
    link := fun id op created => by simp [start, SearchNodeInfo.unseen] at created }
  entries := fun id present => by simp [start, search.openList.entries_initial] at present
  recorded := fun id present => by simp [start, LlmTriggerMonitor.start] at present
  pending := fun id present => by simp [start, LlmTriggerMonitor.start] at present
  control := trivial

theorem run_wellFormed (inputs : List (SearchInput S)) :
    search.WellFormed (search.machine.run inputs) :=
  search.machine.run_invariant search.start_wellFormed
    (fun state input wellFormed => wellFormed.step (search.next_step state input)) inputs

theorem plan_executes (inputs : List (SearchInput S)) {plan : List O}
    (returned : (search.machine.run inputs).plan = some plan) :
    ∃ goalState, search.task.testGoal goalState = true ∧
      search.task.Executes search.task.initialState plan goalState := by
  have linked := (search.run_wellFormed inputs).control
  obtain ⟨status, lastPoll, control⟩ := SearchState.finished_of_plan returned
  rw [control] at linked
  exact linked plan rfl

/-- The induction over runs: an invariant that well-formed steps meeting the condition preserve. -/
theorem run_of_meets (invariant condition : SearchState S O M Q → Prop)
    (initially : invariant search.start)
    (preserved : ∀ {state after : SearchState S O M Q} {input : SearchInput S},
      search.WellFormed state → condition state → invariant state →
      search.Step input state after → invariant after)
    (inputs : List (SearchInput S))
    (meets : search.machine.StepsMeet (fun state _ => condition state) search.start inputs) :
    invariant (search.machine.run inputs) := by
  have both := search.machine.runFrom_invariant
    (fun state => search.WellFormed state ∧ invariant state)
    (fun state _ => condition state)
    (fun state input holds before =>
      ⟨before.1.step (search.next_step state input),
        preserved before.1 holds before.2 (search.next_step state input)⟩)
    search.start inputs ⟨search.start_wellFormed, initially⟩ meets
  exact both.2

/-- A condition may be checked on well-formed states only. -/
theorem stepsMeet_of_wellFormed (check : SearchState S O M Q → Prop)
    {condition : SearchState S O M Q → Prop}
    (sound : ∀ state, search.WellFormed state → check state → condition state)
    (inputs : List (SearchInput S))
    (checked : search.machine.StepsMeet (fun state _ => check state) search.start inputs) :
    search.machine.StepsMeet (fun state _ => condition state) search.start inputs :=
  search.machine.stepsMeet_of_invariant search.WellFormed (fun state _ => check state)
    search.start_wellFormed
    (fun state input wellFormed => wellFormed.step (search.next_step state input))
    (fun state _ wellFormed holds => sound state wellFormed holds) inputs checked

/-! ## Searches that only open new nodes -/

/-- If the next step applies an operator, its successor is new and the sum stored there is a small
integer. -/
def opensExactly (state : SearchState S O M Q) : Bool :=
  match search.attempt state with
  | none => true
  | some (parent, op) =>
    let sum := (state.nodes parent).g + search.task.cost op
    (state.nodes (search.task.getSuccessorState parent op)).status = .new &&
      (state.nodes parent).realG = (state.nodes parent).g &&
      sum.den = 1 && 0 ≤ sum.num && sum.num < 2 ^ 29

variable {search}

theorem opensExactly_sum {state : SearchState S O M Q} (opens : search.opensExactly state = true)
    {parent : S} {op : O} (attempted : search.attempt state = some (parent, op)) :
    (state.nodes (search.task.getSuccessorState parent op)).status = .new ∧
      (state.nodes parent).realG = (state.nodes parent).g ∧
      ∃ sum : ℕ, (state.nodes parent).g + search.task.cost op = sum ∧ sum < 2 ^ 29 := by
  simp only [opensExactly, attempted, Bool.and_eq_true, decide_eq_true_eq] at opens
  obtain ⟨⟨⟨⟨isNew, same⟩, integral⟩, lower⟩, upper⟩ := opens
  refine ⟨isNew, same, (((state.nodes parent).g : ℚ) + search.task.cost op).num.toNat, ?_, ?_⟩
  · rw [← Int.cast_natCast, Int.toNat_of_nonneg lower]
    exact (Rat.coe_int_num_of_den_eq_one integral).symm
  · omega

/-- A new node has no children. -/
theorem WellFormed.childless {state : SearchState S O M Q} (wellFormed : search.WellFormed state)
    {id child : S} {op : O} (isNew : (state.nodes id).status = .new)
    (pointer : (state.nodes child).parentStateId = some id)
    (created : (state.nodes child).creatingOperator = some op) : False := by
  obtain ⟨parent, parentPointer, linked, _⟩ := wellFormed.graph.link child op created
  obtain rfl : id = parent := Option.some.inj (pointer.symm.trans parentPointer)
  rcases linked with ⟨_, seen⟩ | parentCreated
  · exact seen isNew
  · exact parentCreated (wellFormed.graph.new id isNew)

end EagerSearch

end CutPlan.Search
