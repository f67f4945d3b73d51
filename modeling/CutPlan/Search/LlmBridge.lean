import CutPlan.Lib.Machine
import CutPlan.Search.LlmMonitor
import Mathlib.Algebra.BigOperators.Group.Finset.Basic
import Mathlib.Algebra.Order.BigOperators.Group.Multiset
import Mathlib.Data.Fintype.Basic

/-! # The bridge to the model workers

`LLMBridge` in its HTTP mode, with the counters that the monitor prints when it is finalized.  An
event is one critical section of the search thread or of a worker; a run is any order of them.
-/

namespace CutPlan.Search

open CutPlan.Lib

structure LlmRequest (S : Type) where
  requestId : ℕ
  stateId : S

structure BridgeResponse (S : Type) extends LlmResponse S where
  requestId : ℕ

inductive WorkerState (S : Type) where
  | waiting
  | posting (request : LlmRequest S)
  | exited

def WorkerState.hasExited {S : Type} : WorkerState S → Bool
  | .exited => true
  | _ => false

/-- The request that a worker has taken from the queue and not yet answered. -/
def WorkerState.held {S : Type} : WorkerState S → Multiset ℕ
  | .posting request => {request.requestId}
  | _ => 0

/-- The size counters are integers: a decrement below zero would show. -/
structure LlmBridge (Worker S : Type) where
  outgoing : List (LlmRequest S)
  completed : List (BridgeResponse S)
  workers : Worker → WorkerState S
  activeRequests : ℤ
  stopping : Bool
  queuedDiscardedOnStop : ℤ
  activeCancelledOnStop : ℤ
  completedUnconsumedOnStop : ℤ

namespace LlmBridge

variable {Worker S : Type} [DecidableEq Worker] (bridge : LlmBridge Worker S)

/-- A bridge whose workers have been started. -/
def start : LlmBridge Worker S where
  outgoing := []
  completed := []
  workers := fun _ => .waiting
  activeRequests := 0
  stopping := false
  queuedDiscardedOnStop := 0
  activeCancelledOnStop := 0
  completedUnconsumedOnStop := 0

/-- The section of `worker_loop` that a waiting worker enters.  It blocks on an empty queue. -/
def dequeue (worker : Worker) : LlmBridge Worker S :=
  match bridge.workers worker with
  | .waiting =>
    if bridge.stopping then
      { bridge with workers := Function.update bridge.workers worker .exited }
    else
      match bridge.outgoing with
      | [] => bridge
      | request :: outgoing =>
        { bridge with
          outgoing := outgoing
          activeRequests := bridge.activeRequests + 1
          workers := Function.update bridge.workers worker (.posting request) }
  | _ => bridge

def pushCompleted (worker : Worker) (transportOk : Bool) (body : String) : LlmBridge Worker S :=
  match bridge.workers worker with
  | .posting request =>
    { bridge with
      activeRequests := bridge.activeRequests - 1
      completed := bridge.completed ++
        [{ stateId := request.stateId, transportOk, body, requestId := request.requestId }]
      workers := Function.update bridge.workers worker .waiting }
  | _ => bridge

/-- The locked section of `stop`; the threads are joined afterwards. -/
def stop : LlmBridge Worker S :=
  if bridge.stopping then bridge
  else
    { bridge with
      stopping := true
      queuedDiscardedOnStop := bridge.queuedDiscardedOnStop + bridge.outgoing.length
      activeCancelledOnStop := bridge.activeCancelledOnStop + bridge.activeRequests
      completedUnconsumedOnStop := bridge.completedUnconsumedOnStop + bridge.completed.length
      outgoing := [] }

/-- `none` if the request is refused. -/
def submit (maxQueue : ℤ) (request : LlmRequest S) : Option (LlmBridge Worker S) :=
  if bridge.stopping then none
  else if 0 < maxQueue && maxQueue ≤ bridge.outgoing.length then none
  else some { bridge with outgoing := bridge.outgoing ++ [request] }

def pollCompleted : List (BridgeResponse S) × LlmBridge Worker S :=
  (bridge.completed, { bridge with completed := [] })

end LlmBridge

/-- Where the search thread is in `finalize_and_print`. -/
inductive Shutdown where
  | searching
  | stopped
  | joined
  | finalized
  deriving DecidableEq, Repr

/-- The bridge with the counters of the monitor.  `submitted` and `polled` record the requests that
the bridge has accepted and those that a poll has returned. -/
structure MonitoredBridge (Worker S : Type) where
  bridge : LlmBridge Worker S
  shutdown : Shutdown
  nextRequestId : ℕ
  requestsSubmitted : ℤ
  requestsRejectedBridge : ℤ
  responsesCompleted : ℤ
  responseTransportFailures : ℤ
  responsesDiscardedPhaseEnd : ℤ
  completedUnconsumedPhaseEnd : ℤ
  submitted : List ℕ
  polled : List ℕ

inductive BridgeEvent (Worker S : Type) where
  | request (stateId : S)
  | poll
  | finalize
  | dequeue (worker : Worker)
  | post (worker : Worker) (transportOk : Bool) (body : String)

namespace MonitoredBridge

variable {Worker S : Type} [DecidableEq Worker] [Fintype Worker] (maxQueue : ℤ)
  (state : MonitoredBridge Worker S)

def start : MonitoredBridge Worker S where
  bridge := .start
  shutdown := .searching
  nextRequestId := 0
  requestsSubmitted := 0
  requestsRejectedBridge := 0
  responsesCompleted := 0
  responseTransportFailures := 0
  responsesDiscardedPhaseEnd := 0
  completedUnconsumedPhaseEnd := 0
  submitted := []
  polled := []

/-- The part of `request_state` behind its own checks. -/
def requestState (stateId : S) : MonitoredBridge Worker S :=
  let numbered := { state with nextRequestId := state.nextRequestId + 1 }
  match state.bridge.submit maxQueue { requestId := state.nextRequestId, stateId } with
  | none => { numbered with requestsRejectedBridge := state.requestsRejectedBridge + 1 }
  | some bridge =>
    { numbered with
      bridge := bridge
      requestsSubmitted := state.requestsSubmitted + 1
      submitted := state.submitted ++ [state.nextRequestId] }

def pollBridge (discardForPhaseEnd : Bool) : MonitoredBridge Worker S :=
  let responses := state.bridge.pollCompleted.1
  let emptied :=
    { state with
      bridge := state.bridge.pollCompleted.2
      polled := state.polled ++ responses.map BridgeResponse.requestId }
  if discardForPhaseEnd then
    { emptied with
      responsesDiscardedPhaseEnd := state.responsesDiscardedPhaseEnd + responses.length }
  else
    { emptied with
      responsesCompleted := state.responsesCompleted + responses.length
      responseTransportFailures := state.responseTransportFailures +
        responses.countP fun response => !response.transportOk }

/-- The next section of `finalize_and_print`.  The join waits for every worker. -/
def finalize : MonitoredBridge Worker S :=
  match state.shutdown with
  | .searching => { state with bridge := state.bridge.stop, shutdown := .stopped }
  | .stopped =>
    if ∀ worker, (state.bridge.workers worker).hasExited = true then
      { state with shutdown := .joined }
    else state
  | .joined =>
    { pollBridge
        { state with completedUnconsumedPhaseEnd := state.bridge.completedUnconsumedOnStop } true with
      shutdown := .finalized }
  | .finalized => state

/-- While it waits in `finalize_and_print` the search thread neither requests nor polls. -/
def searchThreadFree : Bool :=
  state.shutdown = .searching || state.shutdown = .finalized

def next (event : BridgeEvent Worker S) : MonitoredBridge Worker S :=
  match event with
  | .request stateId =>
    if state.searchThreadFree then requestState maxQueue state stateId else state
  | .poll => if state.searchThreadFree then pollBridge state false else state
  | .finalize => finalize state
  | .dequeue worker => { state with bridge := state.bridge.dequeue worker }
  | .post worker transportOk body =>
    { state with bridge := state.bridge.pushCompleted worker transportOk body }

def machine : Machine (MonitoredBridge Worker S) (BridgeEvent Worker S) where
  start := start
  next := next maxQueue

end MonitoredBridge

end CutPlan.Search
