import CutPlan.Search.ExplicitTask
import CutPlan.Search.SearchGraph

set_option linter.unusedSectionVars false

/-! # Open states and the open list

An open state that the search may still expand has an entry in the open list, or it was suspended and
its response is still to come or just being processed.
-/

namespace CutPlan.Search

open CutPlan.Lib

namespace EagerSearch

variable {S O M Q : Type} [DecidableEq S] [DecidableEq O] {search : EagerSearch S O M Q}

/-- The responses of the current poll that were not processed yet. -/
def remainingResponses : Control S O → List (LlmResponse S)
  | .processResponses responses _ => responses
  | .injectChains _ responses _ => responses
  | .finished _ _ lastPoll => lastPoll
  | _ => []

/-- The suspended source whose chains are just being injected. -/
def resumedSource : Control S O → Option S
  | .injectChains injection _ _ =>
    if injection.sourceWasSuspended then some injection.sourceId else none
  | _ => none

/-- The state is suspended, and its request is pending or its response belongs to the current poll;
or the chains of its response are just being injected. -/
def AwaitsResponse (state : SearchState S O M Q) (id : S) : Prop :=
  (id ∈ state.monitor.suspendedStates ∧ (id ∈ state.monitor.pendingStates ∨
    ∃ response ∈ remainingResponses state.control, response.stateId = id)) ∨
  resumedSource state.control = some id

/-- No open state that satisfies the global constraint is lost. -/
def KeepsOpenStates (search : EagerSearch S O M Q) (state : SearchState S O M Q) : Prop :=
  ∀ id, (state.nodes id).status = .opened → search.task.violatesGlobalConstraint id = false →
    id ∈ search.openList.entries state.openList ∨ AwaitsResponse state id

/-! ## A list restricted to preferred entries -/

section PreferredOnly

def preferredOnlySearch : EagerSearch ℕ Edge Unit (TieBreakingBuckets ℕ) :=
  greedySearch chainTask
    { h := fun _ => 0
      costType := .normal
      bound := 3
      reopenClosedNodes := true
      prefOnly := true
      llmTriggerMonitor := noRequests
      parseLlmResponseBody := fun _ => { valid := false, status := "", actionChains := [] } }

theorem preferredOnly_loses_open_state :
    ¬ preferredOnlySearch.KeepsOpenStates (preferredOnlySearch.machine.run (quietInputs 7)) := by
  intro keeps
  have opened : ((preferredOnlySearch.machine.run (quietInputs 7)).nodes 1).status = .opened := by
    decide +kernel
  rcases keeps 1 opened (by decide +kernel) with entry | ⟨suspended, _⟩ | resumed
  · have absent : 1 ∉ preferredOnlySearch.openList.entries
        (preferredOnlySearch.machine.run (quietInputs 7)).openList := by decide +kernel
    exact absent entry
  · have nobody : 1 ∉ (preferredOnlySearch.machine.run
        (quietInputs 7)).monitor.suspendedStates := by decide +kernel
    exact nobody suspended
  · have nothing : resumedSource (preferredOnlySearch.machine.run (quietInputs 7)).control ≠
        some 1 := by decide +kernel
    exact nothing resumed

end PreferredOnly

/-! ## Lists that take every entry -/

structure OpenStatesKept (search : EagerSearch S O M Q) (state : SearchState S O M Q) : Prop where
  entries : ∀ id, id ∈ search.openList.entries state.openList → IsVisited state.nodes id
  alive : ∀ id, IsVisited state.nodes id → search.openList.isDeadEnd state.memory id = false
  skips : ∀ id, id ∈ state.monitor.suspendedStates ∨ resumedSource state.control = some id →
    search.llmTriggerMonitor.skipPending = true
  keeps : search.KeepsOpenStates state
  failed : ∀ plan lastPoll, state.control = .finished .failed plan lastPoll →
    search.openList.entries state.openList = 0 ∧ state.monitor.pendingStates = ∅ ∧ lastPoll = []

theorem fetchResult_discard {state : SearchState S O M Q} {id : S} {key : Key}
    (single : search.useMultiPathDependence = false)
    (verdict : search.fetchResult state id key = .discard) :
    search.task.violatesGlobalConstraint id = true ∨ (state.nodes id).status = .closed := by
  simp only [fetchResult, single, Bool.false_eq_true, if_false, SearchNodeInfo.isClosed,
    decide_eq_true_eq] at verdict
  split at verdict
  next violates => exact .inl violates
  next =>
    split at verdict
    next isClosed => exact .inr isClosed
    next => split at verdict <;> cases verdict

theorem fetchResult_suspend {state : SearchState S O M Q} {id : S} {key : Key}
    (verdict : search.fetchResult state id key = .suspend) :
    search.llmTriggerMonitor.skipPending = true ∧ id ∈ state.monitor.pendingStates := by
  unfold fetchResult at verdict
  simp only at verdict
  split at verdict
  · cases verdict
  · split at verdict
    · cases verdict
    · split at verdict
      next suspends =>
        simp only [LlmTriggerMonitor.suspends, Bool.and_eq_true, decide_eq_true_eq] at suspends
        exact ⟨suspends.1.2, suspends.2⟩
      next => split_ifs at verdict

theorem fetchResult_reinsert {state : SearchState S O M Q} {id : S} {key : Key}
    (verdict : search.fetchResult state id key = .reinsert) :
    search.useMultiPathDependence = true := by
  unfold fetchResult at verdict
  simp only at verdict
  split_ifs at verdict
  assumption

/-- Without multi-path dependence the memory changes for a new successor only. -/
theorem reachedMemory_alive {state : SearchState S O M Q}
    (single : search.useMultiPathDependence = false) {parent : S} {op : O} {id : S}
    (visited : IsVisited state.nodes id) :
    search.openList.isDeadEnd (search.reachedMemory state parent op) id =
      search.openList.isDeadEnd state.memory id := by
  unfold reachedMemory
  split
  next reaches =>
    apply search.isDeadEnd_reachState
    rintro rfl
    rw [single, Bool.false_or] at reaches
    rcases visited with isOpen | isClosed
    · simp [SearchNodeInfo.isNew, isOpen] at reaches
    · simp [SearchNodeInfo.isNew, isClosed] at reaches
  next => rfl

theorem SuccessorOutcome.alive {isPreferred : Bool} {state after : SearchState S O M Q} {parent : S}
    {op : O} (single : search.useMultiPathDependence = false)
    (outcome : search.SuccessorOutcome isPreferred state parent op after)
    (before : ∀ id, IsVisited state.nodes id →
      search.openList.isDeadEnd state.memory id = false) (id : S)
    (visited : IsVisited after.nodes id) :
    search.openList.isDeadEnd after.memory id = false := by
  have unchanged : IsVisited state.nodes id →
      search.openList.isDeadEnd (search.reachedMemory state parent op) id = false :=
    fun visitedBefore => (reachedMemory_alive single visitedBefore).trans (before id visitedBefore)
  by_cases isTarget : id = search.task.getSuccessorState parent op
  · subst isTarget
    cases outcome with
    | knownDeadEnd _ => exact before _ visited
    | notCheaper _ => exact unchanged visited
    | newDeadEnd _ => simp [IsVisited, SearchNodeInfo.markAsDeadEnd] at visited
    | opened opens => exact opens.2
    | reopened rewires _ => exact unchanged rewires.1
    | parentUpdated rewires _ => exact unchanged rewires.1
  · cases outcome with
    | knownDeadEnd _ => exact before id visited
    | notCheaper _ => exact unchanged visited
    | newDeadEnd _ | opened _ | reopened _ _ | parentUpdated _ _ =>
      apply unchanged
      simpa [IsVisited, isTarget] using visited

theorem SuccessorOutcome.entries_mono {isPreferred : Bool} {state after : SearchState S O M Q}
    {parent : S} {op : O} (outcome : search.SuccessorOutcome isPreferred state parent op after)
    {id : S} (present : id ∈ search.openList.entries state.openList) :
    id ∈ search.openList.entries after.openList := by
  cases outcome with
  | opened _ =>
    rw [rewardProgress_entries]
    exact OpenList.mem_insert_of_mem present
  | reopened _ _ => exact OpenList.mem_insert_of_mem present
  | _ => exact present

/-- Whatever the successor generation opens goes into the open list. -/
theorem SuccessorOutcome.opened_entry {isPreferred : Bool} {state after : SearchState S O M Q}
    {parent : S} {op : O} (unrestricted : search.openList.onlyPreferred = false)
    (single : search.useMultiPathDependence = false)
    (outcome : search.SuccessorOutcome isPreferred state parent op after)
    (before : ∀ id, IsVisited state.nodes id →
      search.openList.isDeadEnd state.memory id = false) {id : S}
    (isOpen : (after.nodes id).status = .opened) :
    id ∈ search.openList.entries after.openList ∨ (state.nodes id).status = .opened := by
  have alive := outcome.alive single before id (.inl isOpen)
  by_cases isTarget : id = search.task.getSuccessorState parent op
  · subst isTarget
    cases outcome with
    | opened _ =>
      rw [rewardProgress_entries]
      exact .inl (OpenList.mem_insert_self unrestricted alive)
    | reopened _ _ => exact .inl (OpenList.mem_insert_self unrestricted alive)
    | parentUpdated _ _ => exact .inr (by simpa [linkedInfo] using isOpen)
    | newDeadEnd _ => simp [SearchNodeInfo.markAsDeadEnd] at isOpen
    | knownDeadEnd _ | notCheaper _ => exact .inr isOpen
  · cases outcome with
    | knownDeadEnd _ | notCheaper _ => exact .inr isOpen
    | newDeadEnd _ | opened _ | reopened _ _ | parentUpdated _ _ =>
      exact .inr (by simpa [isTarget] using isOpen)

/-! ## What a step keeps -/

theorem OpenStatesKept.step_alive {state after : SearchState S O M Q} {input : SearchInput S}
    (single : search.useMultiPathDependence = false) (kept : search.OpenStatesKept state)
    (step : search.Step input state after) (id : S)
    (visited : IsVisited after.nodes id) :
    search.openList.isDeadEnd after.memory id = false := by
  have before := kept.alive
  cases step with
  | initialOpened _ _ alive =>
    by_cases isRoot : id = search.task.initialState
    · rw [isRoot]
      exact alive
    · exact before id (by simpa [IsVisited, isRoot] using visited)
  | actionIntoDeadEnd _ _ _ _ _ _ _ _ _ _ outcome _ => exact outcome.alive single before id visited
  | actionApplied _ _ _ _ _ _ _ _ _ _ outcome _ => exact outcome.alive single before id visited
  | operatorApplied _ _ _ _ _ _ _ outcome => exact outcome.alive single before id visited
  | sourceDeadEnd injection _ _ _ _ _ _ =>
    by_cases same : id = injection.sourceId
    · simp [IsVisited, same, SearchNodeInfo.markAsDeadEnd] at visited
    · exact before id (by simpa [IsVisited, same] using visited)
  | entryDeadEnd _ _ _ _ _ verdict =>
    rw [search.fetchResult_deadEnd verdict] at single
    cases single
  | closed target _ _ _ removed _ =>
    by_cases same : id = target
    · exact before id (same ▸ kept.entries target (mem_of_removed removed))
    · exact before id (by simpa [IsVisited, same] using visited)
  | _ => exact before id visited

theorem SuccessorOutcome.visited_mono {isPreferred : Bool} {state after : SearchState S O M Q}
    {parent : S} {op : O} (outcome : search.SuccessorOutcome isPreferred state parent op after)
    (id : S) (visited : IsVisited state.nodes id) : IsVisited after.nodes id := by
  by_cases isTarget : id = search.task.getSuccessorState parent op
  · subst isTarget
    cases outcome with
    | knownDeadEnd _ | notCheaper _ => exact visited
    | newDeadEnd isNew => simp [IsVisited, isNew] at visited
    | opened _ | reopened _ _ => simp [IsVisited, linkedInfo]
    | parentUpdated _ _ => simpa [IsVisited, linkedInfo] using visited
  · cases outcome with
    | knownDeadEnd _ | notCheaper _ => exact visited
    | newDeadEnd _ | opened _ | reopened _ _ | parentUpdated _ _ =>
      simpa [IsVisited, isTarget] using visited

theorem SuccessorOutcome.entry_visited {isPreferred : Bool} {state after : SearchState S O M Q}
    {parent : S} {op : O} (outcome : search.SuccessorOutcome isPreferred state parent op after)
    (before : ∀ id, id ∈ search.openList.entries state.openList → IsVisited state.nodes id) {id : S}
    (present : id ∈ search.openList.entries after.openList) : IsVisited after.nodes id := by
  have unchanged := outcome.visited_mono id
  cases outcome with
  | opened _ =>
    rw [rewardProgress_entries] at present
    rcases OpenList.of_mem_insert present with old | rfl
    · exact unchanged (before id old)
    · simp [IsVisited, linkedInfo, newContext]
  | reopened _ _ =>
    rcases OpenList.of_mem_insert present with old | rfl
    · exact unchanged (before id old)
    · simp [IsVisited, linkedInfo, reopenContext]
  | knownDeadEnd _ | notCheaper _ | newDeadEnd _ | parentUpdated _ _ =>
    exact unchanged (before id present)

theorem OpenStatesKept.step_entries {state after : SearchState S O M Q} {input : SearchInput S}
    (single : search.useMultiPathDependence = false) (kept : search.OpenStatesKept state)
    (step : search.Step input state after) (id : S)
    (present : id ∈ search.openList.entries after.openList) : IsVisited after.nodes id := by
  have before := kept.entries
  cases step with
  | initialOpened _ _ _ =>
    by_cases isRoot : id = search.task.initialState
    · simp [IsVisited, isRoot, SearchNodeInfo.openInitial]
    · rcases OpenList.of_mem_insert present with old | same
      · simpa [IsVisited, isRoot] using before id old
      · exact absurd same isRoot
  | actionIntoDeadEnd _ _ _ _ _ _ _ _ _ _ outcome _ => exact outcome.entry_visited before present
  | actionApplied _ _ _ _ _ _ _ _ _ _ outcome _ => exact outcome.entry_visited before present
  | operatorApplied _ _ _ _ _ _ _ outcome => exact outcome.entry_visited before present
  | sourceDeadEnd injection _ _ _ isOpen dead _ =>
    rw [kept.alive injection.sourceId (.inl isOpen)] at dead
    cases dead
  | sourceRequeued injection _ _ _ isOpen _ _ =>
    rcases OpenList.of_mem_insert present with old | rfl
    · exact before id old
    · exact .inl isOpen
  | discarded _ _ _ _ removed _ | suspended _ _ _ _ removed _ =>
    exact before id (mem_of_mem_rest removed present)
  | entryDeadEnd _ _ _ _ _ verdict =>
    rw [search.fetchResult_deadEnd verdict] at single
    cases single
  | reinserted _ _ _ _ _ verdict =>
    rw [fetchResult_reinsert verdict] at single
    cases single
  | closed target _ _ _ removed _ =>
    have visited := before id (mem_of_mem_rest removed present)
    by_cases same : id = target
    · simp [IsVisited, same, SearchNodeInfo.close]
    · simpa [IsVisited, same] using visited
  | _ => exact before id present

theorem recordExpanded_suspended (options : LlmMonitorOptions) (monitor : LlmTriggerMonitor S)
    (id : S) : (monitor.recordExpanded options id).suspendedStates = monitor.suspendedStates := by
  unfold LlmTriggerMonitor.recordExpanded
  split <;> rfl

theorem recordExpanded_pending (options : LlmMonitorOptions) (monitor : LlmTriggerMonitor S)
    (id : S) : (monitor.recordExpanded options id).pendingStates = monitor.pendingStates := by
  unfold LlmTriggerMonitor.recordExpanded
  split <;> rfl

theorem resumedSource_injectChains {injection : Injection S} {responses : List (LlmResponse S)}
    {site : PollSite} {id : S} :
    resumedSource (.injectChains injection responses site : Control S O) = some id ↔
      injection.sourceWasSuspended = true ∧ injection.sourceId = id := by
  simp [resumedSource]

theorem OpenStatesKept.step_skips {state after : SearchState S O M Q} {input : SearchInput S}
    (kept : search.OpenStatesKept state) (step : search.Step input state after) (id : S)
    (awaits : id ∈ after.monitor.suspendedStates ∨ resumedSource after.control = some id) :
    search.llmTriggerMonitor.skipPending = true := by
  have before := kept.skips id
  cases step with
  | initialOpened _ _ _ =>
    rw [LlmTriggerMonitor.requestStates_suspended] at awaits
    exact before (awaits.imp_right fun resumed => by cases resumed)
  | polled _ _ | planFound _ _ _ _ _ =>
    rw [LlmTriggerMonitor.pollBridge_suspended] at awaits
    exact before (awaits.imp_right fun resumed => by cases resumed)
  | responseTaken response responses site _ =>
    rcases awaits with suspended | resumed
    · exact before (.inl (Finset.mem_of_mem_erase suspended))
    · obtain ⟨member, rfl⟩ := resumedSource_injectChains.mp resumed
      exact before (.inl (by simpa using member))
  | chainStarts injection _ _ _ _ control _ _ | actionBlocked injection _ _ _ _ control _ _ =>
    rw [control] at before
    exact before (awaits.imp_right resumedSource_injectChains.mp |>.imp_right
      resumedSource_injectChains.mpr)
  | actionIntoDeadEnd injection _ _ _ _ _ _ control _ _ outcome _
  | actionApplied injection _ _ _ _ _ _ control _ _ outcome _ =>
    rw [control] at before
    simp only [outcome.monitor] at awaits
    exact before (awaits.imp_right resumedSource_injectChains.mp |>.imp_right
      resumedSource_injectChains.mpr)
  | operatorApplied _ _ _ _ _ _ _ outcome =>
    simp only [outcome.monitor] at awaits
    exact before (awaits.imp_right fun resumed => by cases resumed)
  | suspended _ _ _ _ _ verdict => exact (fetchResult_suspend verdict).1
  | closed _ _ _ _ _ _ =>
    rw [LlmTriggerMonitor.requestStates_suspended, recordExpanded_suspended] at awaits
    exact before (awaits.imp_right fun resumed => by cases resumed)
  | pointerMissing _ _ _ _ _ _ _ | halted _ _ _ _ => exact before awaits
  | _ => exact before (awaits.imp_right fun resumed => by cases resumed)

/-- A state that neither lost its entry nor its place among the suspended is still kept. -/
theorem AwaitsResponse.mono {before after : SearchState S O M Q} {id : S}
    (awaits : AwaitsResponse before id)
    (suspended : id ∈ before.monitor.suspendedStates → id ∈ after.monitor.suspendedStates)
    (pending : id ∈ before.monitor.pendingStates → id ∈ after.monitor.pendingStates)
    (nothingLeft : remainingResponses before.control = [])
    (notResumed : resumedSource before.control = none) :
    AwaitsResponse after id := by
  rcases awaits with ⟨member, stillPending | ⟨response, inPoll, _⟩⟩ | resumed
  · exact .inl ⟨suspended member, .inl (pending stillPending)⟩
  · rw [nothingLeft] at inPoll
    cases inPoll
  · rw [notResumed] at resumed
    cases resumed

/-- The same within one injection. -/
theorem AwaitsResponse.injectChains {before after : SearchState S O M Q} {id : S}
    {injection next : Injection S} {responses : List (LlmResponse S)} {site : PollSite}
    (controlBefore : before.control = .injectChains injection responses site)
    (controlAfter : after.control = .injectChains next responses site)
    (sameMonitor : after.monitor = before.monitor) (sameSource : next.sourceId = injection.sourceId)
    (sameFlag : next.sourceWasSuspended = injection.sourceWasSuspended)
    (awaits : AwaitsResponse before id) : AwaitsResponse after id := by
  unfold AwaitsResponse at awaits ⊢
  rw [controlBefore, resumedSource_injectChains] at awaits
  rw [controlAfter, resumedSource_injectChains, sameMonitor, sameSource, sameFlag]
  exact awaits

theorem OpenStatesKept.step_keeps {state after : SearchState S O M Q} {input : SearchInput S}
    (unrestricted : search.openList.onlyPreferred = false)
    (single : search.useMultiPathDependence = false) (kept : search.OpenStatesKept state)
    (step : search.Step input state after) : search.KeepsOpenStates after := by
  intro id isOpen allowed
  have before := fun isOpenBefore => kept.keeps id isOpenBefore allowed
  cases step with
  | initialDeadEnd control _ | loopHeadPollEnds control | endOfStepPollEnds control
  | waits control _ _ | fails control _ _ | goalFound _ control _ | expansionStarts _ _ control _
  | operatorRejected _ _ _ _ control _ | expansionEnds _ _ control
  | pointerFollowed _ _ _ _ _ control _ _ =>
    exact (before isOpen).imp_right fun awaits => awaits.mono (fun member => member)
      (fun member => member) (by rw [control]; rfl) (by rw [control]; rfl)
  | initialOpened _ control alive =>
    by_cases isRoot : id = search.task.initialState
    · subst isRoot
      exact .inl (OpenList.mem_insert_self unrestricted alive)
    · refine (before (by simpa [isRoot] using isOpen)).imp OpenList.mem_insert_of_mem
        (fun awaits => awaits.mono ?_ ?_ (by rw [control]; rfl) (by rw [control]; rfl))
      · exact fun member => by rwa [LlmTriggerMonitor.requestStates_suspended]
      · exact fun member => LlmTriggerMonitor.pending_subset_requestStates _ _ _ _ member
  | polled site control =>
    refine (before isOpen).imp_right fun awaits => ?_
    rcases awaits with ⟨suspended, pending | ⟨_, inPoll, _⟩⟩ | resumed
    · refine .inl ⟨?_, state.monitor.pending_or_polled input.completed pending⟩
      rwa [LlmTriggerMonitor.pollBridge_suspended]
    · simp [control, remainingResponses] at inPoll
    · simp [control, resumedSource] at resumed
  | planFound goalState current path control _ =>
    refine (before isOpen).imp_right fun awaits => ?_
    rcases awaits with ⟨suspended, pending | ⟨_, inPoll, _⟩⟩ | resumed
    · refine .inl ⟨?_, state.monitor.pending_or_polled input.completed pending⟩
      rwa [LlmTriggerMonitor.pollBridge_suspended]
    · simp [control, remainingResponses] at inPoll
    · simp [control, resumedSource] at resumed
  | responseTaken response responses site control =>
    refine (before isOpen).imp_right fun awaits => ?_
    rcases awaits with ⟨suspended, waiting⟩ | resumed
    · by_cases same : response.stateId = id
      · exact .inr (resumedSource_injectChains.mpr ⟨by simpa [same] using suspended, same⟩)
      · refine .inl ⟨Finset.mem_erase.mpr ⟨Ne.symm same, suspended⟩, waiting.imp_right ?_⟩
        rintro ⟨other, inPoll, rfl⟩
        rw [control] at inPoll
        rcases List.mem_cons.mp inPoll with rfl | later
        · exact absurd rfl same
        · exact ⟨other, later, rfl⟩
    · simp [control, resumedSource] at resumed
  | chainStarts injection _ _ _ _ control _ _ | actionBlocked injection _ _ _ _ control _ _ =>
    exact (before isOpen).imp_right fun awaits => awaits.injectChains control rfl rfl rfl rfl
  | actionIntoDeadEnd injection _ _ _ _ _ _ control _ _ outcome _
  | actionApplied injection _ _ _ _ _ _ control _ _ outcome _ =>
    rcases outcome.opened_entry unrestricted single kept.alive isOpen with entry | isOpenBefore
    · exact .inl entry
    · exact (before isOpenBefore).imp outcome.entries_mono fun awaits =>
        awaits.injectChains control rfl outcome.monitor rfl rfl
  | operatorApplied _ _ _ _ _ control _ outcome =>
    rcases outcome.opened_entry unrestricted single kept.alive isOpen with entry | isOpenBefore
    · exact .inl entry
    · refine (before isOpenBefore).imp outcome.entries_mono
        (fun awaits => awaits.mono ?_ ?_ (by rw [control]; rfl) (by rw [control]; rfl))
      · exact fun member => by simpa only [outcome.monitor] using member
      · exact fun member => by simpa only [outcome.monitor] using member
  | injectionEnds injection responses site control notResumable =>
    refine (before isOpen).imp_right fun awaits => ?_
    rcases awaits with ⟨suspended, waiting⟩ | resumed
    · exact .inl ⟨suspended, by simpa [control, remainingResponses] using waiting⟩
    · -- A source that was suspended is requeued as long as it is open.
      have skips := kept.skips id (.inr resumed)
      rw [control, resumedSource_injectChains] at resumed
      obtain ⟨wasSuspended, rfl⟩ := resumed
      exact absurd isOpen (notResumable wasSuspended skips)
  | sourceDeadEnd injection responses site control wasOpen dead _ =>
    rw [kept.alive injection.sourceId (.inl wasOpen)] at dead
    cases dead
  | sourceRequeued injection responses site control wasOpen alive skips =>
    by_cases isSource : id = injection.sourceId
    · subst isSource
      exact .inl (OpenList.mem_insert_self unrestricted alive)
    · refine (before isOpen).imp OpenList.mem_insert_of_mem fun awaits => ?_
      rcases awaits with ⟨suspended, waiting⟩ | resumed
      · exact .inl ⟨suspended, by simpa [control, remainingResponses] using waiting⟩
      · rw [control, resumedSource_injectChains] at resumed
        exact absurd resumed.2.symm isSource
  | discarded popped key rest control removed verdict =>
    rcases before isOpen with entry | awaits
    · rw [search.openList.removeMin_entries removed] at entry
      rcases Multiset.mem_cons.mp entry with rfl | other
      · rcases fetchResult_discard single verdict with violates | isClosed
        · rw [allowed] at violates
          cases violates
        · rw [isClosed] at isOpen
          cases isOpen
      · exact .inl other
    · exact .inr (awaits.mono (fun member => member) (fun member => member)
        (by rw [control]; rfl) (by rw [control]; rfl))
  | suspended popped key rest control removed verdict =>
    obtain ⟨_, pending⟩ := fetchResult_suspend verdict
    by_cases same : id = popped
    · exact .inr (.inl ⟨Finset.mem_insert.mpr (.inl same), .inl (same ▸ pending)⟩)
    · refine (before isOpen).imp (fun entry => ?_) fun awaits => awaits.mono ?_
        (fun member => member) (by rw [control]; rfl) (by rw [control]; rfl)
      · rw [search.openList.removeMin_entries removed] at entry
        exact (Multiset.mem_cons.mp entry).resolve_left same
      · exact fun member => Finset.mem_insert_of_mem member
  | entryDeadEnd _ _ _ _ _ verdict =>
    rw [search.fetchResult_deadEnd verdict] at single
    cases single
  | reinserted _ _ _ _ _ verdict =>
    rw [fetchResult_reinsert verdict] at single
    cases single
  | closed popped key rest control removed verdict =>
    have other : id ≠ popped := by
      rintro rfl
      simp [SearchNodeInfo.close] at isOpen
    refine (before (by simpa [other] using isOpen)).imp (fun entry => ?_)
      (fun awaits => awaits.mono ?_ ?_ (by rw [control]; rfl) (by rw [control]; rfl))
    · rw [search.openList.removeMin_entries removed] at entry
      exact (Multiset.mem_cons.mp entry).resolve_left other
    · intro member
      rwa [LlmTriggerMonitor.requestStates_suspended, recordExpanded_suspended]
    · intro member
      apply LlmTriggerMonitor.pending_subset_requestStates
      rwa [recordExpanded_pending]
  | pointerMissing _ _ _ _ _ _ _ | halted _ _ _ _ => exact before isOpen

theorem OpenStatesKept.step_failed {state after : SearchState S O M Q} {input : SearchInput S}
    (kept : search.OpenStatesKept state)
    (step : search.Step input state after) (plan : Option (List O)) (lastPoll : List (LlmResponse S))
    (control : after.control = .finished .failed plan lastPoll) :
    search.openList.entries after.openList = 0 ∧ after.monitor.pendingStates = ∅ ∧
      lastPoll = [] := by
  cases step with
  | fails _ isEmpty settled =>
    cases control
    refine ⟨(search.openList.isEmpty_iff _).mp isEmpty, ?_, rfl⟩
    simpa [LlmTriggerMonitor.hasPendingRequests] using settled
  | pointerMissing _ _ _ _ _ _ _ => exact kept.failed plan lastPoll control
  | halted _ _ _ _ => exact kept.failed plan lastPoll control
  | _ => cases control

theorem OpenStatesKept.step {state after : SearchState S O M Q} {input : SearchInput S}
    (unrestricted : search.openList.onlyPreferred = false)
    (single : search.useMultiPathDependence = false) (kept : search.OpenStatesKept state)
    (step : search.Step input state after) : search.OpenStatesKept after where
  entries := kept.step_entries single step
  alive := kept.step_alive single step
  skips := kept.step_skips step
  keeps := kept.step_keeps unrestricted single step
  failed := kept.step_failed step

/-! ## Runs -/

theorem run_openStatesKept (search : EagerSearch S O M Q)
    (unrestricted : search.openList.onlyPreferred = false)
    (single : search.useMultiPathDependence = false) (inputs : List (SearchInput S)) :
    search.OpenStatesKept (search.machine.run inputs) := by
  refine search.machine.run_invariant ?_
    (fun state input kept => kept.step unrestricted single (search.next_step state input)) inputs
  constructor
  · intro id present
    simp [machine, start, search.openList.entries_initial] at present
  · intro id visited
    simp [IsVisited, machine, start, SearchNodeInfo.unseen] at visited
  · intro id awaits
    simp [machine, start, LlmTriggerMonitor.start, resumedSource] at awaits
  · intro id isOpen
    simp [machine, start, SearchNodeInfo.unseen] at isOpen
  · intro plan lastPoll control
    cases control

/-- With an open list that takes every entry no open state is lost, and a search that fails has dealt
with every state it opened and waits for nothing. -/
theorem no_open_state_lost (search : EagerSearch S O M Q)
    (unrestricted : search.openList.onlyPreferred = false)
    (single : search.useMultiPathDependence = false) (inputs : List (SearchInput S)) :
    search.KeepsOpenStates (search.machine.run inputs) ∧
      ∀ plan lastPoll,
        (search.machine.run inputs).control = .finished .failed plan lastPoll →
        (search.machine.run inputs).monitor.pendingStates = ∅ ∧
          ∀ id, ((search.machine.run inputs).nodes id).status ≠ .new →
            search.task.violatesGlobalConstraint id = false →
            ((search.machine.run inputs).nodes id).status = .closed ∨
              ((search.machine.run inputs).nodes id).status = .deadEnd := by
  have kept := search.run_openStatesKept unrestricted single inputs
  refine ⟨kept.keeps, fun plan lastPoll control => ?_⟩
  obtain ⟨noEntries, nothingPending, polledNothing⟩ := kept.failed plan lastPoll control
  refine ⟨nothingPending, fun id seen allowed => ?_⟩
  cases status : ((search.machine.run inputs).nodes id).status with
  | new => exact absurd status seen
  | closed => exact .inl rfl
  | deadEnd => exact .inr rfl
  | opened =>
    rcases kept.keeps id status allowed with entry | ⟨_, pending | ⟨_, inPoll, _⟩⟩ | resumed
    · simp [noEntries] at entry
    · simp [nothingPending] at pending
    · simp [control, remainingResponses, polledNothing] at inPoll
    · simp [control, resumedSource] at resumed

theorem chain_search_loses_no_open_state :
    chainSearch.KeepsOpenStates (chainSearch.machine.run (quietInputs 7)) :=
  (no_open_state_lost chainSearch rfl rfl (quietInputs 7)).1

end EagerSearch

end CutPlan.Search
