import CutPlan.Lib.Stuttering
import CutPlan.Search.ExplicitTask
import CutPlan.Search.SearchGraph

set_option linter.unusedSectionVars false

/-! # Searches undisturbed by useless responses

With the pending behaviour `normal`, a search that only receives responses without an applicable first
action makes the same search as one whose monitor is disabled.  Both are observed through a view that
forgets the monitor and identifies all program points of a poll with the head of the fetch loop.
-/

namespace CutPlan.Search

open CutPlan.Lib

namespace EagerSearch

variable {S O M Q : Type} [DecidableEq S] [DecidableEq O] (search : EagerSearch S O M Q)

/-! ## The view -/

def plainControl : Control S O → Control S O
  | .pollBridge _ => .fetchNextNode
  | .processResponses _ _ => .fetchNextNode
  | .injectChains _ _ _ => .fetchNextNode
  | .finished status plan _ => .finished status plan []
  | control => control

/-- Everything but the bookkeeping of requests and responses. -/
def forget (state : SearchState S O M Q) : SearchState S O M Q :=
  { state with monitor := .start, control := plainControl state.control }

def withoutMonitor : EagerSearch S O M Q := { search with llmTriggerMonitor := noRequests }

@[simp] theorem withoutMonitor_task : search.withoutMonitor.task = search.task := rfl
@[simp] theorem withoutMonitor_openList : search.withoutMonitor.openList = search.openList := rfl
@[simp] theorem withoutMonitor_heuristics : search.withoutMonitor.heuristics = search.heuristics :=
  rfl
@[simp] theorem withoutMonitor_pruneOperators :
    search.withoutMonitor.pruneOperators = search.pruneOperators := rfl
@[simp] theorem withoutMonitor_generateApplicableOps :
    search.withoutMonitor.generateApplicableOps = search.generateApplicableOps := rfl
@[simp] theorem withoutMonitor_insertEntry :
    search.withoutMonitor.insertEntry = search.insertEntry := rfl
@[simp] theorem withoutMonitor_exceedsBound :
    search.withoutMonitor.exceedsBound = search.exceedsBound := rfl
@[simp] theorem withoutMonitor_generateSuccessor :
    search.withoutMonitor.generateSuccessor = search.generateSuccessor := rfl

def quietInput : SearchInput S := { completed := [], requests := [] }

/-- One step of the search as if there were no monitor. -/
def plainStep (state : SearchState S O M Q) : SearchState S O M Q :=
  forget (search.withoutMonitor.next state quietInput)

/-- The response proposes no chain whose first action is applicable in its source. -/
def Useless (response : LlmResponse S) : Prop :=
  ∀ chain ∈ response.chainsToInject search.parseLlmResponseBody,
    ∀ action, chain.head? = some action →
      ∀ op, search.task.resolveAction response.stateId action ≠ .found op

/-! ## Steps that advance the search -/

/-- The state at another program point and with other bookkeeping. -/
def elsewhere (monitor : LlmTriggerMonitor S) (control : Control S O) (state : SearchState S O M Q) :
    SearchState S O M Q :=
  { state with monitor := monitor, control := control }

section Frame

variable (monitor : LlmTriggerMonitor S) (control : Control S O) (isPreferred : Bool) (parent : S)
  (op : O) (state : SearchState S O M Q)

theorem openSuccessor_elsewhere :
    search.openSuccessor isPreferred parent op (elsewhere monitor control state) =
      elsewhere monitor control (search.openSuccessor isPreferred parent op state) := by
  unfold openSuccessor
  by_cases dead : search.openList.isDeadEnd state.memory (search.task.getSuccessorState parent op)
  · simp only [elsewhere, dead, if_true]
    rfl
  · simp only [elsewhere, dead]
    rfl

theorem rewireSuccessor_elsewhere :
    search.rewireSuccessor isPreferred parent op (elsewhere monitor control state) =
      elsewhere monitor control (search.rewireSuccessor isPreferred parent op state) := by
  unfold rewireSuccessor
  split <;> rfl

theorem generateSuccessor_elsewhere :
    search.generateSuccessor isPreferred parent op (elsewhere monitor control state) =
      elsewhere monitor control (search.generateSuccessor isPreferred parent op state) := by
  unfold generateSuccessor
  simp only [show (elsewhere monitor control state).nodes = state.nodes from rfl]
  have reached : (if search.useMultiPathDependence ||
        (state.nodes (search.task.getSuccessorState parent op)).isNew then
      search.reachState parent op (elsewhere monitor control state)
      else elsewhere monitor control state) =
      elsewhere monitor control (if search.useMultiPathDependence ||
        (state.nodes (search.task.getSuccessorState parent op)).isNew then
      search.reachState parent op state else state) := by
    split <;> rfl
  rw [reached, openSuccessor_elsewhere, rewireSuccessor_elsewhere]
  split_ifs <;> rfl

end Frame

/-- The program points from which a step does the work of the search. -/
def Working (state : SearchState S O M Q) : Prop :=
  match state.control with
  | .pollBridge _ => False
  | .processResponses _ _ => False
  | .injectChains _ _ _ => False
  | .fetchNextNode =>
    search.openList.isEmpty state.openList = false ∨ state.monitor.hasPendingRequests = false
  | _ => True

variable {search}

theorem fetchResult_forget (normal : search.llmTriggerMonitor.skipPending = false)
    (state : SearchState S O M Q) (id : S) (key : Key) :
    search.withoutMonitor.fetchResult (forget state) id key = search.fetchResult state id key := by
  simp only [fetchResult, LlmTriggerMonitor.suspends, normal, Bool.and_false, Bool.false_and]
  rfl

theorem forget_fetchNextNode (normal : search.llmTriggerMonitor.skipPending = false)
    {state : SearchState S O M Q}
    (working : search.openList.isEmpty state.openList = false ∨
      state.monitor.hasPendingRequests = false) (input : SearchInput S) :
    forget (search.fetchNextNode input state) =
      forget (search.withoutMonitor.fetchNextNode quietInput (forget state)) := by
  have sameOpenList : (forget state).openList = state.openList := rfl
  have idle : (forget state).monitor.hasPendingRequests = false := rfl
  unfold fetchNextNode
  cases isEmpty : search.openList.isEmpty state.openList with
  | true =>
    have settled : state.monitor.hasPendingRequests = false := by simpa [isEmpty] using working
    simp only [withoutMonitor_openList, sameOpenList, isEmpty, idle, settled, if_true,
      Bool.false_eq_true, if_false]
    rfl
  | false =>
    simp only [withoutMonitor_openList, sameOpenList, isEmpty, Bool.false_eq_true, if_false]
    obtain ⟨⟨id, key, rest⟩, removed⟩ := Option.isSome_iff_exists.mp
      (search.openList.removeMin_isSome state.openList isEmpty)
    simp only [removed, fetchResult_forget normal]
    cases search.fetchResult state id key <;> rfl

theorem forget_next_of_working (normal : search.llmTriggerMonitor.skipPending = false)
    {state : SearchState S O M Q} (working : search.Working state) (input : SearchInput S) :
    forget (search.next state input) = search.plainStep (forget state) := by
  unfold plainStep
  cases control : state.control with
  | pollBridge site | processResponses responses site | injectChains injection responses site =>
    simp [Working, control] at working
  | beforeSearch =>
    by_cases dead : search.openList.isDeadEnd state.memory search.task.initialState
    · simp [next, control, forget, plainControl, initializeSearch, dead]
    · simp [next, control, forget, plainControl, initializeSearch, dead, quietInput,
        LlmTriggerMonitor.requestStates]
      exact ⟨rfl, rfl, rfl⟩
  | fetchNextNode =>
    simp only [Working, control] at working
    have plain : search.withoutMonitor.next (forget state) quietInput =
        search.withoutMonitor.fetchNextNode quietInput (forget state) := by
      simp [next, forget, plainControl, control]
    have advanced : search.next state input = search.fetchNextNode input state := by
      simp [next, control]
    rw [plain, advanced]
    exact forget_fetchNextNode normal working input
  | checkGoal id =>
    by_cases goal : search.task.testGoal id
    · simp [next, control, forget, plainControl, checkGoal, goal]
    · simp [next, control, forget, plainControl, checkGoal, goal]
  | expand id preferredOps ops =>
    cases ops with
    | nil => simp [next, control, forget, plainControl, expand]
    | cons op ops =>
      by_cases rejected : search.exceedsBound (state.nodes id) op
      · simp [next, control, forget, plainControl, expand, rejected]
      · have same := search.generateSuccessor_elsewhere .start (.expand id preferredOps (op :: ops))
          (op ∈ preferredOps) id op state
        unfold elsewhere at same
        simp [next, control, forget, plainControl, expand, rejected, same]
  | tracePath goalState current path =>
    cases created : (state.nodes current).creatingOperator with
    | none => simp [next, control, forget, plainControl, tracePath, created]
    | some op =>
      cases pointer : (state.nodes current).parentStateId with
      | none => simp [next, control, forget, plainControl, tracePath, created, pointer]
      | some parent => simp [next, control, forget, plainControl, tracePath, created, pointer]
  | finished status plan lastPoll => simp [next, control, forget, plainControl]

/-! ## Steps of a poll -/

variable (search) in
/-- No chain still to be injected has an applicable first action. -/
def UselessControl : Control S O → Prop
  | .processResponses responses _ => ∀ response ∈ responses, search.Useless response
  | .injectChains injection responses _ =>
    (∀ action ∈ injection.actions.head?, injection.currentState = injection.sourceId ∧
      ∀ op, search.task.resolveAction injection.sourceId action ≠ .found op) ∧
    (∀ chain ∈ injection.chains, ∀ action ∈ chain.head?,
      ∀ op, search.task.resolveAction injection.sourceId action ≠ .found op) ∧
    ∀ response ∈ responses, search.Useless response
  | _ => True

theorem selectOperator_found {state : SearchState S O M Q} {current : S} {action : String} {op : O}
    (selected : search.selectOperator state current action = some op) :
    search.task.resolveAction current action = .found op := by
  unfold selectOperator at selected
  split at selected
  · cases selected
  · cases selected
  next found resolution =>
    split at selected
    · cases selected
    · cases selected
      exact resolution

theorem UselessControl.blocked {state : SearchState S O M Q} {injection : Injection S}
    {responses : List (LlmResponse S)} {site : PollSite} {action : String} {actions : List String}
    {op : O} (useless : search.UselessControl state.control)
    (control : state.control = .injectChains injection responses site)
    (actionsDef : injection.actions = action :: actions)
    (selected : search.selectOperator state injection.currentState action = some op) : False := by
  rw [control] at useless
  obtain ⟨atSource, unresolved⟩ := useless.1 action (by simp [actionsDef])
  rw [atSource] at selected
  exact unresolved op (selectOperator_found selected)

theorem UselessControl.step {state after : SearchState S O M Q} {input : SearchInput S}
    (inputUseless : ∀ response ∈ input.completed, search.Useless response)
    (useless : search.UselessControl state.control) (step : search.Step input state after) :
    search.UselessControl after.control := by
  cases step with
  | polled site control =>
    intro response delivered
    exact inputUseless response (state.monitor.pending_of_polled input.completed delivered).2
  | responseTaken response responses site control =>
    rw [control] at useless
    obtain ⟨head, remaining⟩ := List.forall_mem_cons.mp useless
    refine ⟨by simp, fun chain member action isHead => ?_, remaining⟩
    exact head chain member action isHead
  | chainStarts injection responses site chain chains control _ chainsDef =>
    rw [control] at useless
    obtain ⟨_, chainsUseless, remaining⟩ := useless
    rw [chainsDef] at chainsUseless
    obtain ⟨headUseless, tailUseless⟩ := List.forall_mem_cons.mp chainsUseless
    exact ⟨fun action isHead => ⟨rfl, headUseless action isHead⟩, tailUseless, remaining⟩
  | actionBlocked injection responses site action actions control _ _ =>
    rw [control] at useless
    exact ⟨by simp, useless.2⟩
  | actionIntoDeadEnd _ _ _ _ _ _ _ control actionsDef selected _ _
  | actionApplied _ _ _ _ _ _ _ control actionsDef selected _ _ =>
    exact (useless.blocked control actionsDef selected).elim
  | injectionEnds injection responses site control _
  | sourceDeadEnd injection responses site control _ _ _
  | sourceRequeued injection responses site control _ _ _ =>
    rw [control] at useless
    exact useless.2.2
  | loopHeadPollEnds _ | endOfStepPollEnds _ => trivial
  | pointerMissing _ _ _ _ _ _ _ => exact useless
  | halted _ _ _ _ => exact useless
  | _ => trivial

/-- A step of a poll, or of waiting, shows nothing and requests nothing. -/
theorem forget_step_of_not_working (normal : search.llmTriggerMonitor.skipPending = false)
    {state after : SearchState S O M Q} {input : SearchInput S}
    (useless : search.UselessControl state.control) (idle : ¬ search.Working state)
    (step : search.Step input state after) :
    forget after = forget state ∧ after.monitor.pendingStates ⊆ state.monitor.pendingStates := by
  unfold Working at idle
  cases step with
  | polled site control =>
    exact ⟨by simp [forget, plainControl, control],
      state.monitor.pollBridge_pending_subset input.completed⟩
  | responseTaken _ _ _ control =>
    exact ⟨by simp [forget, plainControl, control], Finset.Subset.refl _⟩
  | loopHeadPollEnds control | endOfStepPollEnds control =>
    exact ⟨by simp [forget, plainControl, control], Finset.Subset.refl _⟩
  | chainStarts _ _ _ _ _ control _ _ | actionBlocked _ _ _ _ _ control _ _ =>
    exact ⟨by simp [forget, plainControl, control], Finset.Subset.refl _⟩
  | actionIntoDeadEnd _ _ _ _ _ _ _ control actionsDef selected _ _
  | actionApplied _ _ _ _ _ _ _ control actionsDef selected _ _ =>
    exact (useless.blocked control actionsDef selected).elim
  | injectionEnds _ _ _ control _ =>
    exact ⟨by simp [forget, plainControl, control], Finset.Subset.refl _⟩
  | sourceDeadEnd _ _ _ _ _ _ skips | sourceRequeued _ _ _ _ _ _ skips =>
    rw [normal] at skips
    cases skips
  | waits control _ _ => exact ⟨by simp [forget, plainControl, control], Finset.Subset.refl _⟩
  | fails control _ settled => simp [control, settled] at idle
  | discarded _ _ _ control removed _ | suspended _ _ _ control removed _
  | entryDeadEnd _ _ _ control removed _ | reinserted _ _ _ control removed _
  | closed _ _ _ control removed _ =>
    simp only [control, not_or, Bool.not_eq_false] at idle
    have noEntries := (search.openList.isEmpty_iff _).mp idle.1
    rw [search.openList.removeMin_entries removed] at noEntries
    simp at noEntries
  | initialDeadEnd control _ | initialOpened _ control _ | goalFound _ control _
  | expansionStarts _ _ control _ | operatorRejected _ _ _ _ control _
  | operatorApplied _ _ _ _ _ control _ _ | expansionEnds _ _ control
  | planFound _ _ _ control _ | pointerFollowed _ _ _ _ _ control _ _
  | pointerMissing _ _ _ _ control _ _ | halted _ _ _ control => simp [control] at idle

/-! ## Every poll ends -/

def chainsWork (chains : List (List String)) : ℕ :=
  (chains.map fun chain => chain.length + 1).sum

variable (search) in
def responsesWork (responses : List (LlmResponse S)) : ℕ :=
  (responses.map fun response =>
    chainsWork (response.chainsToInject search.parseLlmResponseBody) + 2).sum

def siteRank : PollSite → ℕ
  | .loopHead => 0
  | .endOfStep => 2

variable (search) in
/-- How far a poll is from its end: the polls still to start, and the work left in the current one. -/
def pollRank (state : SearchState S O M Q) : ℕ ×ₗ ℕ :=
  match state.control with
  | .pollBridge site => toLex (siteRank site + 1, 0)
  | .processResponses responses site => toLex (siteRank site, search.responsesWork responses + 1)
  | .injectChains injection responses site =>
    toLex (siteRank site, injection.actions.length + chainsWork injection.chains +
      search.responsesWork responses + 2)
  | _ => toLex (0, 0)

theorem pollRank_decreases {state after : SearchState S O M Q} {input : SearchInput S}
    (useless : search.UselessControl state.control) (idle : ¬ search.Working state)
    (polling : state.control ≠ .fetchNextNode) (step : search.Step input state after) :
    search.pollRank after < search.pollRank state := by
  unfold Working at idle
  cases step with
  | polled site control =>
    simp only [pollRank, control]
    exact Prod.Lex.toLex_lt_toLex.mpr (.inl (Nat.lt_succ_self _))
  | responseTaken _ _ _ control =>
    simp only [pollRank, control, responsesWork, List.map_cons, List.sum_cons, List.length_nil]
    exact Prod.Lex.toLex_lt_toLex.mpr (.inr ⟨rfl, by simp only; omega⟩)
  | loopHeadPollEnds control =>
    simp only [pollRank, control]
    exact Prod.Lex.toLex_lt_toLex.mpr (.inr ⟨rfl, Nat.succ_pos _⟩)
  | endOfStepPollEnds control =>
    simp only [pollRank, control]
    exact Prod.Lex.toLex_lt_toLex.mpr (.inl (by simp [siteRank]))
  | chainStarts _ _ _ _ _ control actionsDef chainsDef =>
    simp only [pollRank, control, actionsDef, chainsDef, chainsWork, List.map_cons, List.sum_cons,
      List.length_nil]
    exact Prod.Lex.toLex_lt_toLex.mpr (.inr ⟨rfl, by simp only; omega⟩)
  | actionBlocked _ _ _ _ _ control actionsDef _ =>
    simp only [pollRank, control, actionsDef, List.length_cons, List.length_nil]
    exact Prod.Lex.toLex_lt_toLex.mpr (.inr ⟨rfl, by simp only; omega⟩)
  | actionIntoDeadEnd _ _ _ _ _ _ _ control actionsDef selected _ _
  | actionApplied _ _ _ _ _ _ _ control actionsDef selected _ _ =>
    exact (useless.blocked control actionsDef selected).elim
  | injectionEnds _ _ _ control _ | sourceDeadEnd _ _ _ control _ _ _
  | sourceRequeued _ _ _ control _ _ _ =>
    simp only [pollRank, control]
    exact Prod.Lex.toLex_lt_toLex.mpr (.inr ⟨rfl, by simp only; omega⟩)
  | waits control _ _ | fails control _ _ | discarded _ _ _ control _ _
  | suspended _ _ _ control _ _ | entryDeadEnd _ _ _ control _ _ | reinserted _ _ _ control _ _
  | closed _ _ _ control _ _ => exact absurd control polling
  | initialDeadEnd control _ | initialOpened _ control _ | goalFound _ control _
  | expansionStarts _ _ control _ | operatorRejected _ _ _ _ control _
  | operatorApplied _ _ _ _ _ control _ _ | expansionEnds _ _ control
  | planFound _ _ _ control _ | pointerFollowed _ _ _ _ _ control _ _
  | pointerMissing _ _ _ _ control _ _ | halted _ _ _ control => simp [control] at idle

/-! ## Infinite runs -/

/-- Every pending request completes some time. -/
def RequestsComplete (search : EagerSearch S O M Q) (inputs : ℕ → SearchInput S) : Prop :=
  ∀ n, ∀ id ∈ (search.machine.stateAt inputs n).monitor.pendingStates,
    ∃ m, n ≤ m ∧ id ∉ (search.machine.stateAt inputs m).monitor.pendingStates

section Run

variable (normal : search.llmTriggerMonitor.skipPending = false) {inputs : ℕ → SearchInput S}
  (inputsUseless : ∀ n, ∀ response ∈ (inputs n).completed, search.Useless response)

include inputsUseless in
theorem stateAt_useless (n : ℕ) :
    search.UselessControl (search.machine.stateAt inputs n).control :=
  search.machine.stateAt_invariant
    (fun state => search.UselessControl state.control) trivial
    (fun state n useless => useless.step (inputsUseless n) (search.next_step state (inputs n))) n

include normal inputsUseless

theorem run_stutters : search.machine.Stutters forget search.plainStep inputs := by
  intro n notAdvancing
  have useless := stateAt_useless inputsUseless n
  have idle : ¬ search.Working (search.machine.stateAt inputs n) :=
    fun working => notAdvancing (forget_next_of_working normal working (inputs n))
  exact (forget_step_of_not_working normal useless idle (search.next_step _ (inputs n))).1

/-- While nothing works, all pending requests run out. -/
theorem pending_runs_out (completes : search.RequestsComplete inputs) {n : ℕ}
    (idle : ∀ m, n ≤ m → ¬ search.Working (search.machine.stateAt inputs m)) :
    ∃ m, n ≤ m ∧ ∀ later, m ≤ later →
      (search.machine.stateAt inputs later).monitor.pendingStates = ∅ := by
  have shrinks : ∀ m, n ≤ m → ∀ later, m ≤ later →
      (search.machine.stateAt inputs later).monitor.pendingStates ⊆
        (search.machine.stateAt inputs m).monitor.pendingStates := by
    intro m afterStart later after
    induction later, after using Nat.le_induction with
    | base => exact Finset.Subset.refl _
    | succ later after inductionHypothesis =>
      have useless := stateAt_useless inputsUseless later
      exact (forget_step_of_not_working normal useless (idle later (afterStart.trans after))
        (search.next_step _ (inputs later))).2.trans inductionHypothesis
  induction size : (search.machine.stateAt inputs n).monitor.pendingStates.card
    using Nat.strong_induction_on generalizing n with
  | _ size inductionHypothesis =>
    rcases (search.machine.stateAt inputs n).monitor.pendingStates.eq_empty_or_nonempty with
      nothing | ⟨id, pending⟩
    · refine ⟨n, le_refl n, fun later after => ?_⟩
      exact Finset.subset_empty.mp (nothing ▸ shrinks n (le_refl n) later after)
    · obtain ⟨m, after, completed⟩ := completes n id pending
      have fewer := Finset.card_lt_card ((Finset.ssubset_iff_of_subset (shrinks n (le_refl n) m after)).mpr
        ⟨id, pending, completed⟩)
      obtain ⟨last, afterM, nothing⟩ := inductionHypothesis _ (size ▸ fewer)
        (fun later laterAfter => idle later (after.trans laterAfter))
        (fun later laterAfter => shrinks later (after.trans laterAfter)) rfl
      exact ⟨last, after.trans afterM, nothing⟩

theorem run_progresses (completes : search.RequestsComplete inputs) (n : ℕ) :
    ∃ m, n ≤ m ∧ search.machine.Advances forget search.plainStep inputs m := by
  suffices working : ∃ m, n ≤ m ∧ search.Working (search.machine.stateAt inputs m) by
    obtain ⟨m, after, works⟩ := working
    exact ⟨m, after, forget_next_of_working normal works (inputs m)⟩
  by_contra never
  have idle : ∀ m, n ≤ m → ¬ search.Working (search.machine.stateAt inputs m) :=
    fun m after works => never ⟨m, after, works⟩
  obtain ⟨m, after, nothing⟩ := pending_runs_out normal inputsUseless completes idle
  obtain ⟨last, afterM, atLoopHead⟩ := search.machine.eventually_of_rank search.pollRank
    (fun state => search.Working state ∨ state.control = .fetchNextNode)
    (fun k notReached => by
      rw [not_or] at notReached
      exact pollRank_decreases (stateAt_useless inputsUseless k) notReached.1 notReached.2
        (search.next_step _ (inputs k))) m
  have notWorking := idle last (after.trans afterM)
  refine notWorking (atLoopHead.elim (fun works => works) fun control => ?_)
  have settled : (search.machine.stateAt inputs last).monitor.hasPendingRequests = false := by
    simp [LlmTriggerMonitor.hasPendingRequests, nothing last afterM]
  simp only [Working, control]
  exact .inr settled

end Run

/-! ## The monitor disabled -/

theorem pendingStates_of_disabled (disabled : search.llmTriggerMonitor.enabled = false)
    {state after : SearchState S O M Q} {input : SearchInput S}
    (nothing : state.monitor.pendingStates = ∅) (step : search.Step input state after) :
    after.monitor.pendingStates = ∅ := by
  have requestsNothing : ∀ (monitor : LlmTriggerMonitor S) (admissible : Finset S)
      (decisions : List S), monitor.pendingStates = ∅ →
      (monitor.requestStates search.llmTriggerMonitor admissible decisions).pendingStates = ∅ := by
    intro monitor admissible decisions
    refine LlmTriggerMonitor.requestStates_invariant search.llmTriggerMonitor monitor
      (fun next => next.pendingStates = ∅) (fun next stateId _ empty => ?_) decisions
    simpa [LlmTriggerMonitor.requestState, disabled] using empty
  cases step with
  | initialOpened _ _ _ => exact requestsNothing _ _ _ nothing
  | closed _ _ _ _ _ _ =>
    refine requestsNothing _ _ _ ?_
    simpa [LlmTriggerMonitor.recordExpanded, disabled] using nothing
  | polled _ _ | planFound _ _ _ _ _ =>
    exact Finset.subset_empty.mp (nothing ▸ state.monitor.pollBridge_pending_subset _)
  | actionIntoDeadEnd _ _ _ _ _ _ generated _ _ _ outcome _
  | actionApplied _ _ _ _ _ _ generated _ _ _ outcome _
  | operatorApplied _ _ _ _ generated _ _ outcome =>
    simpa [outcome.monitor] using nothing
  | responseTaken _ _ _ _ => simpa [LlmTriggerMonitor.takeSuspended] using nothing
  | suspended _ _ _ _ _ _ => simpa [LlmTriggerMonitor.suspend] using nothing
  | _ => simpa using nothing

theorem requestsComplete_of_disabled (disabled : search.llmTriggerMonitor.enabled = false)
    (inputs : ℕ → SearchInput S) : search.RequestsComplete inputs := by
  intro n id pending
  have nothing : (search.machine.stateAt inputs n).monitor.pendingStates = ∅ :=
    search.machine.stateAt_invariant (fun state => state.monitor.pendingStates = ∅) rfl
      (fun state m nothing => pendingStates_of_disabled disabled nothing
        (search.next_step state (inputs m))) n
  simp [nothing] at pending

/-! ## Non-interference -/

/-- What a search has done and how it has ended. -/
structure SameSearch (left right : SearchState S O M Q) : Prop where
  closings : left.closings = right.closings
  nodes : left.nodes = right.nodes
  openList : left.openList = right.openList
  status : left.status = right.status
  plan : left.plan = right.plan

theorem plan_forget (state : SearchState S O M Q) : (forget state).plan = state.plan := by
  unfold forget SearchState.plan plainControl
  cases state.control <;> rfl

theorem status_forget (state : SearchState S O M Q) : (forget state).status = state.status := by
  unfold forget SearchState.status plainControl
  cases state.control <;> rfl

theorem sameSearch_of_forget {left right : SearchState S O M Q} (same : forget left = forget right) :
    SameSearch left right where
  closings := (congrArg SearchState.closings same :)
  nodes := (congrArg SearchState.nodes same :)
  openList := (congrArg SearchState.openList same :)
  status := by rw [← status_forget left, ← status_forget right, same]
  plan := by rw [← plan_forget left, ← plan_forget right, same]

theorem next_of_ended {state : SearchState S O M Q} (ended : state.status ≠ .inProgress)
    (input : SearchInput S) : search.next state input = state := by
  unfold SearchState.status at ended
  unfold next
  cases control : state.control with
  | finished status plan lastPoll => rfl
  | _ => simp [control] at ended

theorem stateAt_of_ended {inputs : ℕ → SearchInput S} {n m : ℕ}
    (ended : (search.machine.stateAt inputs n).status ≠ .inProgress) (later : n ≤ m) :
    search.machine.stateAt inputs m = search.machine.stateAt inputs n := by
  induction m, later using Nat.le_induction with
  | base => rfl
  | succ m _ inductionHypothesis =>
    rw [Machine.stateAt, inductionHypothesis]
    exact next_of_ended ended (inputs m)

theorem requestsComplete_of_ended {inputs : ℕ → SearchInput S} (n : ℕ)
    (ended : (search.machine.stateAt inputs n).status ≠ .inProgress)
    (nothing : (search.machine.stateAt inputs n).monitor.pendingStates = ∅) :
    search.RequestsComplete inputs := by
  intro m id _
  refine ⟨max m n, le_max_left m n, ?_⟩
  rw [stateAt_of_ended ended (le_max_right m n), nothing]
  exact Finset.notMem_empty id

/-- The chain search with a monitor that asks for the initial state and gets an unreadable answer. -/
def noisySearch : EagerSearch ℕ Edge Unit (TieBreakingBuckets ℕ) :=
  { chainSearch with
    llmTriggerMonitor := { enabled := true, skipPending := false, expectsResponse := true } }

def noisyInputs : ℕ → SearchInput ℕ := fun _ =>
  { completed := [{ stateId := 0, transportOk := true, body := "not json" }], requests := [0] }

end EagerSearch

end CutPlan.Search
