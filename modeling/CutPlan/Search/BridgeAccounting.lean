import CutPlan.Search.LlmBridge
import Mathlib.Data.Multiset.UnionInter

/-! # Every request is accounted for

Each accepted request is in exactly one place: queued, held by a worker, completed, returned by a
poll, or discarded when the bridge was stopped.  The counters count these places.
-/

set_option linter.unusedSectionVars false

namespace CutPlan.Search

open CutPlan.Lib

namespace LlmBridge

variable {Worker S : Type} [DecidableEq Worker] [Fintype Worker]

/-! ## Requests held by the bridge -/

def inFlight (workers : Worker → WorkerState S) : Multiset ℕ :=
  ∑ worker, (workers worker).held

def requestIds (bridge : LlmBridge Worker S) : Multiset ℕ :=
  ↑(bridge.outgoing.map LlmRequest.requestId) + inFlight bridge.workers +
    ↑(bridge.completed.map BridgeResponse.requestId)

theorem inFlight_update (workers : Worker → WorkerState S) (worker : Worker)
    (next : WorkerState S) :
    inFlight (Function.update workers worker next) + (workers worker).held =
      inFlight workers + next.held := by
  have others : ∑ other ∈ Finset.univ.erase worker,
      (Function.update workers worker next other).held =
        ∑ other ∈ Finset.univ.erase worker, (workers other).held := by
    apply Finset.sum_congr rfl
    intro other member
    rw [Function.update_of_ne (Finset.ne_of_mem_erase member)]
  unfold inFlight
  rw [← Finset.add_sum_erase _ _ (Finset.mem_univ worker), others,
    ← Finset.add_sum_erase _ (fun other => (workers other).held) (Finset.mem_univ worker),
    Function.update_self]
  abel

theorem inFlight_take {workers : Worker → WorkerState S} {worker : Worker}
    (waits : workers worker = .waiting) (request : LlmRequest S) :
    inFlight (Function.update workers worker (.posting request)) =
      inFlight workers + {request.requestId} := by
  have moved := inFlight_update workers worker (.posting request)
  simpa [waits, WorkerState.held] using moved

theorem inFlight_return {workers : Worker → WorkerState S} {worker : Worker}
    {request : LlmRequest S} (posts : workers worker = .posting request) :
    inFlight (Function.update workers worker .waiting) + {request.requestId} =
      inFlight workers := by
  have moved := inFlight_update workers worker .waiting
  simpa [posts, WorkerState.held] using moved

theorem inFlight_exit {workers : Worker → WorkerState S} {worker : Worker}
    (waits : workers worker = .waiting) :
    inFlight (Function.update workers worker .exited) = inFlight workers := by
  have moved := inFlight_update workers worker .exited
  simpa [waits, WorkerState.held] using moved

theorem inFlight_of_exited {workers : Worker → WorkerState S}
    (exited : ∀ worker, (workers worker).hasExited = true) : inFlight workers = 0 := by
  apply Finset.sum_eq_zero
  intro worker _
  have hasExited := exited worker
  cases held : workers worker with
  | exited => rfl
  | waiting | posting _ => simp [held, WorkerState.hasExited] at hasExited

/-! ## What a section of a worker does -/

/-- A worker's section moves requests within the bridge only. -/
structure WorkerSection (before after : LlmBridge Worker S) : Prop where
  requestIds : after.requestIds = before.requestIds
  active : after.activeRequests - (inFlight after.workers).card =
    before.activeRequests - (inFlight before.workers).card
  stopping : after.stopping = before.stopping
  queuedDiscarded : after.queuedDiscardedOnStop = before.queuedDiscardedOnStop
  activeCancelled : after.activeCancelledOnStop = before.activeCancelledOnStop
  completedUnconsumed : after.completedUnconsumedOnStop = before.completedUnconsumedOnStop
  /-- After the stop nothing is taken from the emptied queue. -/
  stopped : before.stopping = true → after.outgoing = before.outgoing
  exited : (∀ worker, (before.workers worker).hasExited = true) → after = before

theorem WorkerSection.refl (bridge : LlmBridge Worker S) : WorkerSection bridge bridge where
  requestIds := rfl
  active := rfl
  stopping := rfl
  queuedDiscarded := rfl
  activeCancelled := rfl
  completedUnconsumed := rfl
  stopped := fun _ => rfl
  exited := fun _ => rfl

theorem dequeue_section (bridge : LlmBridge Worker S) (worker : Worker) :
    WorkerSection bridge (bridge.dequeue worker) := by
  unfold dequeue
  cases workerState : bridge.workers worker with
  | posting _ | exited => exact .refl bridge
  | waiting =>
    have notExited : ¬ ∀ worker, (bridge.workers worker).hasExited = true := by
      intro exited
      simpa [workerState, WorkerState.hasExited] using exited worker
    cases stopping : bridge.stopping with
    | true =>
      constructor <;> simp [requestIds, inFlight_exit workerState, stopping, notExited]
    | false =>
      cases outgoing : bridge.outgoing with
      | nil => simpa [outgoing, stopping] using WorkerSection.refl bridge
      | cons request rest =>
        constructor
        case requestIds =>
          simp only [requestIds, outgoing, inFlight_take workerState, Bool.false_eq_true, if_false,
            List.map_cons, ← Multiset.cons_coe, ← Multiset.singleton_add]
          abel
        case active => simp [inFlight_take workerState]
        all_goals simp [stopping, notExited]

theorem pushCompleted_section (bridge : LlmBridge Worker S) (worker : Worker) (transportOk : Bool)
    (body : String) : WorkerSection bridge (bridge.pushCompleted worker transportOk body) := by
  unfold pushCompleted
  cases workerState : bridge.workers worker with
  | waiting | exited => exact .refl bridge
  | posting request =>
    have returned := inFlight_return workerState
    have notExited : ¬ ∀ worker, (bridge.workers worker).hasExited = true := by
      intro exited
      simpa [workerState, WorkerState.hasExited] using exited worker
    constructor
    case requestIds =>
      simp only [requestIds, ← returned, List.map_append, List.map_cons, List.map_nil,
        ← Multiset.coe_add, Multiset.coe_singleton]
      abel
    case active =>
      rw [← returned, Multiset.card_add, Multiset.card_singleton]
      push_cast
      omega
    all_goals simp [notExited]

end LlmBridge

namespace MonitoredBridge

variable {Worker S : Type} [DecidableEq Worker] [Fintype Worker]

/-! ## The invariant -/

/-- What the counters of the stop say about the bridge at each stage of `finalize_and_print`. -/
def StopCounters (state : MonitoredBridge Worker S) : Prop :=
  match state.shutdown with
  | .searching => state.bridge.stopping = false ∧ state.bridge.queuedDiscardedOnStop = 0 ∧
      state.bridge.activeCancelledOnStop = 0 ∧ state.bridge.completedUnconsumedOnStop = 0 ∧
      state.responsesDiscardedPhaseEnd = 0
  | .stopped => state.bridge.stopping = true ∧ state.bridge.outgoing = [] ∧
      state.bridge.completedUnconsumedOnStop + state.bridge.activeCancelledOnStop =
        state.bridge.requestIds.card ∧
      state.responsesDiscardedPhaseEnd = 0
  | .joined => state.bridge.stopping = true ∧ state.bridge.outgoing = [] ∧
      (∀ worker, (state.bridge.workers worker).hasExited = true) ∧
      state.bridge.completedUnconsumedOnStop + state.bridge.activeCancelledOnStop =
        state.bridge.completed.length ∧
      state.responsesDiscardedPhaseEnd = 0
  | .finalized => state.bridge.stopping = true ∧ state.bridge.outgoing = [] ∧
      (∀ worker, (state.bridge.workers worker).hasExited = true) ∧ state.bridge.completed = [] ∧
      state.responsesDiscardedPhaseEnd =
        state.completedUnconsumedPhaseEnd + state.bridge.activeCancelledOnStop

structure Accounted (state : MonitoredBridge Worker S) : Prop where
  custody : ∃ discarded : Multiset ℕ,
    (state.submitted : Multiset ℕ) = state.bridge.requestIds + ↑state.polled + discarded ∧
      state.bridge.queuedDiscardedOnStop = discarded.card
  numbered : ∀ id ∈ state.submitted, id < state.nextRequestId
  distinct : state.submitted.Nodup
  active : state.bridge.activeRequests = (LlmBridge.inFlight state.bridge.workers).card
  submittedCount : state.requestsSubmitted = state.submitted.length
  polledCount : state.responsesCompleted + state.responsesDiscardedPhaseEnd = state.polled.length
  stop : state.StopCounters

theorem start_accounted : Accounted (start : MonitoredBridge Worker S) where
  custody := ⟨0, by simp [start, LlmBridge.start, LlmBridge.requestIds, LlmBridge.inFlight,
    WorkerState.held]⟩
  numbered := by simp [start]
  distinct := List.nodup_nil
  active := by simp [start, LlmBridge.start, LlmBridge.inFlight, WorkerState.held]
  submittedCount := rfl
  polledCount := rfl
  stop := by simp [StopCounters, start, LlmBridge.start]

theorem Accounted.workerSection {state : MonitoredBridge Worker S} (accounted : state.Accounted)
    {bridge : LlmBridge Worker S} (moves : LlmBridge.WorkerSection state.bridge bridge) :
    Accounted { state with bridge } where
  custody := by
    obtain ⟨discarded, split, count⟩ := accounted.custody
    exact ⟨discarded, by rw [split, ← moves.requestIds], by rw [← count, ← moves.queuedDiscarded]⟩
  numbered := accounted.numbered
  distinct := accounted.distinct
  active := by
    have before := accounted.active
    have same := moves.active
    show bridge.activeRequests = ((LlmBridge.inFlight bridge.workers).card : ℤ)
    omega
  submittedCount := accounted.submittedCount
  polledCount := accounted.polledCount
  stop := by
    have stop := accounted.stop
    unfold StopCounters at stop ⊢
    cases shutdown : state.shutdown with
    | searching =>
      simp only [shutdown] at stop ⊢
      simpa [moves.stopping, moves.queuedDiscarded, moves.activeCancelled,
        moves.completedUnconsumed] using stop
    | stopped =>
      simp only [shutdown] at stop ⊢
      obtain ⟨stopping, outgoing, counts, discarded⟩ := stop
      refine ⟨moves.stopping.trans stopping, (moves.stopped stopping).trans outgoing, ?_, discarded⟩
      rw [moves.completedUnconsumed, moves.activeCancelled, moves.requestIds, counts]
    | joined =>
      simp only [shutdown] at stop ⊢
      rwa [moves.exited stop.2.2.1]
    | finalized =>
      simp only [shutdown] at stop ⊢
      rwa [moves.exited stop.2.2.1]

/-! ## Sections of the search thread -/

theorem Accounted.requestState {state : MonitoredBridge Worker S} (accounted : state.Accounted)
    (maxQueue : ℤ) (stateId : S) : Accounted (requestState maxQueue state stateId) := by
  have fresh : state.nextRequestId ∉ state.submitted := fun member =>
    Nat.lt_irrefl _ (accounted.numbered _ member)
  have later : ∀ id ∈ state.submitted, id < state.nextRequestId + 1 := fun id member =>
    Nat.lt_succ_of_lt (accounted.numbered id member)
  unfold MonitoredBridge.requestState LlmBridge.submit
  by_cases stopping : state.bridge.stopping = true
  · rw [if_pos stopping]
    exact { accounted with numbered := later, stop := accounted.stop }
  · by_cases full : (0 < maxQueue && maxQueue ≤ state.bridge.outgoing.length) = true
    · simp only [stopping, full, if_true]
      exact { accounted with numbered := later, stop := accounted.stop }
    · simp only [stopping, full, if_false, Bool.false_eq_true]
      refine ⟨?_, ?_, ?_, accounted.active, ?_, accounted.polledCount, ?_⟩
      · obtain ⟨discarded, split, count⟩ := accounted.custody
        refine ⟨discarded, ?_, count⟩
        simp only [← Multiset.coe_add, split, LlmBridge.requestIds, List.map_append, List.map_cons,
          List.map_nil]
        abel
      · intro id member
        rw [List.mem_append, List.mem_singleton] at member
        cases member with
        | inl old => exact later id old
        | inr new => exact new ▸ Nat.lt_succ_self _
      · rw [List.nodup_append]
        refine ⟨accounted.distinct, List.nodup_singleton _, ?_⟩
        rintro id member other isNew rfl
        rw [List.mem_singleton] at isNew
        exact fresh (isNew ▸ member)
      · simp [accounted.submittedCount]
      · have stop := accounted.stop
        unfold StopCounters at stop ⊢
        cases shutdown : state.shutdown with
        | searching =>
          simp only [shutdown] at stop
          simpa using stop.2
        | stopped | joined | finalized =>
          -- only a search that has not been stopped gets past the first check of `submit`
          simp only [shutdown] at stop
          exact absurd stop.1 stopping

theorem Accounted.polled_split {state : MonitoredBridge Worker S} (accounted : state.Accounted) :
    ∃ discarded : Multiset ℕ,
      (state.submitted : Multiset ℕ) = state.bridge.pollCompleted.2.requestIds +
        ↑(state.polled ++ state.bridge.completed.map BridgeResponse.requestId) + discarded ∧
      state.bridge.queuedDiscardedOnStop = discarded.card := by
  obtain ⟨discarded, split, count⟩ := accounted.custody
  refine ⟨discarded, ?_, count⟩
  rw [split]
  simp only [LlmBridge.pollCompleted, LlmBridge.requestIds, ← Multiset.coe_add, List.map_nil,
    Multiset.coe_nil]
  abel

theorem Accounted.poll {state : MonitoredBridge Worker S} (accounted : state.Accounted)
    (free : state.searchThreadFree = true) : Accounted (pollBridge state false) where
  custody := accounted.polled_split
  numbered := accounted.numbered
  distinct := accounted.distinct
  active := accounted.active
  submittedCount := accounted.submittedCount
  polledCount := by
    have count := accounted.polledCount
    simp [pollBridge, LlmBridge.pollCompleted]
    omega
  stop := by
    have stop := accounted.stop
    unfold searchThreadFree at free
    unfold StopCounters at stop ⊢
    cases shutdown : state.shutdown with
    | searching =>
      simp only [shutdown] at stop
      simpa [pollBridge, LlmBridge.pollCompleted, shutdown] using stop
    | finalized =>
      simp only [shutdown] at stop
      obtain ⟨stopping, outgoing, exited, _, counts⟩ := stop
      simpa [pollBridge, LlmBridge.pollCompleted, shutdown] using
        ⟨stopping, outgoing, exited, counts⟩
    | stopped | joined => simp [shutdown] at free

theorem Accounted.finalize {state : MonitoredBridge Worker S} (accounted : state.Accounted) :
    Accounted state.finalize := by
  have stop := accounted.stop
  unfold StopCounters at stop
  unfold MonitoredBridge.finalize
  cases shutdown : state.shutdown with
  | searching =>
    simp only [shutdown] at stop ⊢
    obtain ⟨stopping, queued, cancelled, unconsumed, discardedCount⟩ := stop
    refine ⟨?_, accounted.numbered, accounted.distinct, ?_, accounted.submittedCount,
      accounted.polledCount, ?_⟩
    · -- the queue is what the stop discards
      obtain ⟨discarded, split, count⟩ := accounted.custody
      refine ⟨discarded + ↑(state.bridge.outgoing.map LlmRequest.requestId), ?_, ?_⟩
      · simp only [split, LlmBridge.requestIds, LlmBridge.stop, stopping, Bool.false_eq_true,
          if_false, List.map_nil, Multiset.coe_nil]
        abel
      · simp [LlmBridge.stop, stopping, count]
    · simpa [LlmBridge.stop, stopping] using accounted.active
    · have active := accounted.active
      simp only [StopCounters, LlmBridge.stop, stopping, Bool.false_eq_true, if_false,
        LlmBridge.requestIds, List.map_nil, Multiset.coe_nil, zero_add, Multiset.card_add,
        Multiset.coe_card, List.length_map, discardedCount, true_and, and_true]
      push_cast
      omega
  | stopped =>
    simp only [shutdown] at stop ⊢
    obtain ⟨stopping, outgoing, counts, discardedCount⟩ := stop
    split
    case isFalse => exact accounted
    case isTrue exited =>
      refine { accounted with stop := ?_ }
      refine ⟨stopping, outgoing, exited, ?_, discardedCount⟩
      simpa [LlmBridge.requestIds, outgoing, LlmBridge.inFlight_of_exited exited] using counts
  | joined =>
    simp only [shutdown] at stop ⊢
    obtain ⟨stopping, outgoing, exited, counts, discardedCount⟩ := stop
    refine ⟨accounted.polled_split, accounted.numbered, accounted.distinct, accounted.active,
      accounted.submittedCount, ?_, ?_⟩
    · have count := accounted.polledCount
      simp [pollBridge, LlmBridge.pollCompleted]
      omega
    · simp only [StopCounters, pollBridge, LlmBridge.pollCompleted, if_true]
      exact ⟨stopping, outgoing, exited, trivial, by omega⟩
  | finalized => exact accounted

/-! ## Runs -/

theorem Accounted.next {state : MonitoredBridge Worker S} (accounted : state.Accounted)
    (maxQueue : ℤ) (event : BridgeEvent Worker S) : Accounted (next maxQueue state event) := by
  cases event with
  | request stateId =>
    simp only [MonitoredBridge.next]
    split
    · exact accounted.requestState maxQueue stateId
    · exact accounted
  | poll =>
    simp only [MonitoredBridge.next]
    split
    case isTrue free => exact accounted.poll free
    case isFalse => exact accounted
  | finalize => exact accounted.finalize
  | dequeue worker => exact accounted.workerSection (state.bridge.dequeue_section worker)
  | post worker transportOk body =>
    exact accounted.workerSection (state.bridge.pushCompleted_section worker transportOk body)

theorem run_accounted (maxQueue : ℤ) (events : List (BridgeEvent Worker S)) :
    Accounted ((machine maxQueue).run events) :=
  (machine maxQueue).run_invariant start_accounted
    (fun _ event accounted => accounted.next maxQueue event) events

/-- A worker that posts a response is one of the active requests. -/
theorem Accounted.active_of_posting {state : MonitoredBridge Worker S} (accounted : state.Accounted)
    {worker : Worker} {request : LlmRequest S}
    (posts : state.bridge.workers worker = .posting request) : 0 < state.bridge.activeRequests := by
  rw [accounted.active, ← LlmBridge.inFlight_return posts]
  simp

theorem Accounted.polled_distinct {state : MonitoredBridge Worker S} (accounted : state.Accounted) :
    state.polled.Nodup ∧ ∀ id ∈ state.polled, id ∈ state.submitted := by
  obtain ⟨discarded, split, _⟩ := accounted.custody
  have below : (state.polled : Multiset ℕ) ≤ state.submitted := by
    rw [split]
    exact (Multiset.le_add_left _ _).trans (Multiset.le_add_right _ _)
  refine ⟨?_, fun id member => ?_⟩
  · exact Multiset.coe_nodup.mp (Multiset.nodup_of_le below (Multiset.coe_nodup.mpr accounted.distinct))
  · exact Multiset.mem_coe.mp (Multiset.mem_of_le below (Multiset.mem_coe.mpr member))

theorem bridge_accounting (maxQueue : ℤ) (events : List (BridgeEvent Worker S)) :
    let state := (machine maxQueue).run events
    0 ≤ state.bridge.activeRequests ∧
      (∀ worker request, state.bridge.workers worker = .posting request →
        0 < state.bridge.activeRequests) ∧
      (state.polled.Nodup ∧ ∀ id ∈ state.polled, id ∈ state.submitted) ∧
      (state.shutdown = .finalized →
        state.requestsSubmitted = state.responsesCompleted + state.responsesDiscardedPhaseEnd +
            state.bridge.queuedDiscardedOnStop ∧
          state.responsesDiscardedPhaseEnd =
            state.completedUnconsumedPhaseEnd + state.bridge.activeCancelledOnStop) := by
  intro state
  have accounted : state.Accounted := run_accounted maxQueue events
  refine ⟨?_, fun worker request posts => accounted.active_of_posting posts,
    accounted.polled_distinct, fun finalized => ?_⟩
  · rw [accounted.active]
    exact Int.natCast_nonneg _
  · have stop := accounted.stop
    simp only [StopCounters, finalized] at stop
    obtain ⟨_, outgoing, exited, completed, counts⟩ := stop
    refine ⟨?_, counts⟩
    obtain ⟨discarded, split, count⟩ := accounted.custody
    -- the bridge is empty, so every request has been polled or discarded
    have nothingHeld : state.bridge.requestIds = 0 := by
      simp [LlmBridge.requestIds, outgoing, completed, LlmBridge.inFlight_of_exited exited]
    have sizes := congrArg Multiset.card split
    rw [nothingHeld, zero_add, Multiset.card_add, Multiset.coe_card, Multiset.coe_card] at sizes
    have submitted := accounted.submittedCount
    have polled := accounted.polledCount
    omega

end MonitoredBridge

end CutPlan.Search
