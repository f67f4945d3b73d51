import Mathlib.Data.Finset.Basic
import Mathlib.Data.Finset.Insert
import Mathlib.Tactic

/-! # Request bookkeeping

The sets of `LLMTriggerMonitor` that decide which states are waiting for a response.  Which of the
admissible states a trigger requests, and when, is read from the input of the search: the triggers
and their throttles may only refuse a request.
-/

namespace CutPlan.Search

structure LlmResponse (S : Type) where
  stateId : S
  transportOk : Bool
  body : String

structure ParsedLlmResponse where
  valid : Bool
  status : String
  actionChains : List (List String)

namespace ParsedLlmResponse

def usableStatus (parsed : ParsedLlmResponse) : Bool :=
  parsed.status = "ok" || parsed.status = "partial"

end ParsedLlmResponse

/-- The chains that `poll_llm_responses` passes on to the injection. -/
def LlmResponse.chainsToInject {S : Type} (parseLlmResponseBody : String → ParsedLlmResponse)
    (response : LlmResponse S) : List (List String) :=
  if !response.transportOk || response.body.isEmpty then []
  else
    let parsed := parseLlmResponseBody response.body
    if !parsed.valid then []
    else if parsed.usableStatus then parsed.actionChains.filter (fun chain => !chain.isEmpty)
    else []

/-- `expectsResponse` is false in the log mode of the bridge, which never completes a request. -/
structure LlmMonitorOptions where
  enabled : Bool
  skipPending : Bool
  expectsResponse : Bool

/-- The monitor switched off. -/
def noRequests : LlmMonitorOptions :=
  { enabled := false, skipPending := false, expectsResponse := false }

/-- `recorded` collects the states passed to `record_expanded`, among them every representative of a
layer. -/
structure LlmTriggerMonitor (S : Type) where
  recorded : Finset S
  requestedStates : Finset S
  pendingStates : Finset S
  suspendedStates : Finset S

namespace LlmTriggerMonitor

variable {S : Type} [DecidableEq S]

def start : LlmTriggerMonitor S :=
  { recorded := ∅, requestedStates := ∅, pendingStates := ∅, suspendedStates := ∅ }

variable (options : LlmMonitorOptions) (monitor : LlmTriggerMonitor S)

def hasPendingRequests : Bool := monitor.pendingStates.Nonempty

def requestState (stateId : S) : LlmTriggerMonitor S :=
  if !options.enabled then monitor
  else if stateId ∈ monitor.requestedStates then monitor
  else
    { monitor with
      requestedStates := insert stateId monitor.requestedStates
      pendingStates :=
        if options.expectsResponse then insert stateId monitor.pendingStates
        else monitor.pendingStates }

/-- The requests that the triggers decide on; only admissible states are ever passed. -/
def requestStates (admissible : Finset S) (decisions : List S) : LlmTriggerMonitor S :=
  decisions.foldl (fun monitor stateId =>
    if stateId ∈ admissible then requestState options monitor stateId else monitor) monitor

def recordExpanded (stateId : S) : LlmTriggerMonitor S :=
  if options.enabled then { monitor with recorded := insert stateId monitor.recorded } else monitor

/-- The bridge completes a request at most once, so a response is delivered for pending states
only. -/
def pollBridge : LlmTriggerMonitor S → List (LlmResponse S) →
    List (LlmResponse S) × LlmTriggerMonitor S
  | monitor, [] => ([], monitor)
  | monitor, response :: completed =>
    if response.stateId ∈ monitor.pendingStates then
      let polled :=
        pollBridge { monitor with pendingStates := monitor.pendingStates.erase response.stateId }
          completed
      (response :: polled.1, polled.2)
    else pollBridge monitor completed

def suspends (stateId : S) : Bool :=
  options.enabled && options.skipPending && stateId ∈ monitor.pendingStates

def suspend (stateId : S) : LlmTriggerMonitor S :=
  { monitor with suspendedStates := insert stateId monitor.suspendedStates }

def takeSuspended (stateId : S) : LlmTriggerMonitor S :=
  { monitor with suspendedStates := monitor.suspendedStates.erase stateId }

/-! ## What the operations change -/

theorem requestState_suspended (stateId : S) :
    (requestState options monitor stateId).suspendedStates = monitor.suspendedStates := by
  unfold requestState
  split
  · rfl
  · split <;> rfl

theorem pending_subset_requestState (stateId : S) :
    monitor.pendingStates ⊆ (requestState options monitor stateId).pendingStates := by
  unfold requestState
  split
  · exact subset_refl _
  · split
    · exact subset_refl _
    · simp only
      split
      · exact Finset.subset_insert _ _
      · exact subset_refl _

/-- A predicate on monitors that admissible requests keep holds after all decisions. -/
theorem requestStates_invariant (invariant : LlmTriggerMonitor S → Prop) {admissible : Finset S}
    (preserved : ∀ monitor, ∀ stateId ∈ admissible, invariant monitor →
      invariant (requestState options monitor stateId))
    (decisions : List S) (initially : invariant monitor) :
    invariant (requestStates options monitor admissible decisions) := by
  unfold requestStates
  induction decisions generalizing monitor with
  | nil => exact initially
  | cons stateId decisions inductionHypothesis =>
    apply inductionHypothesis
    by_cases member : stateId ∈ admissible
    · simpa only [member, if_true] using preserved monitor stateId member initially
    · simpa only [member, if_false] using initially

theorem requestStates_suspended (admissible : Finset S) (decisions : List S) :
    (requestStates options monitor admissible decisions).suspendedStates =
      monitor.suspendedStates :=
  requestStates_invariant options monitor
    (fun next => next.suspendedStates = monitor.suspendedStates)
    (fun next stateId _ same => (requestState_suspended options next stateId).trans same)
    decisions rfl

theorem pending_subset_requestStates (admissible : Finset S) (decisions : List S) :
    monitor.pendingStates ⊆ (requestStates options monitor admissible decisions).pendingStates :=
  requestStates_invariant options monitor
    (fun next => monitor.pendingStates ⊆ next.pendingStates)
    (fun next stateId _ below =>
      below.trans (pending_subset_requestState options next stateId))
    decisions (subset_refl _)

theorem pollBridge_suspended (completed : List (LlmResponse S)) :
    (pollBridge monitor completed).2.suspendedStates = monitor.suspendedStates := by
  induction completed generalizing monitor with
  | nil => rfl
  | cons response completed inductionHypothesis =>
    unfold pollBridge
    split
    · simp only [inductionHypothesis]
    · exact inductionHypothesis monitor

theorem pollBridge_recorded (completed : List (LlmResponse S)) :
    (pollBridge monitor completed).2.recorded = monitor.recorded := by
  induction completed generalizing monitor with
  | nil => rfl
  | cons response completed inductionHypothesis =>
    unfold pollBridge
    split
    · simp only [inductionHypothesis]
    · exact inductionHypothesis monitor

theorem pollBridge_pending_subset (completed : List (LlmResponse S)) :
    (pollBridge monitor completed).2.pendingStates ⊆ monitor.pendingStates := by
  induction completed generalizing monitor with
  | nil => exact subset_refl _
  | cons response completed inductionHypothesis =>
    unfold pollBridge
    split
    · exact (inductionHypothesis _).trans (Finset.erase_subset _ _)
    · exact inductionHypothesis monitor

/-- A pending state is still pending after the poll or its response was delivered. -/
theorem pending_or_polled {stateId : S} (completed : List (LlmResponse S))
    (pending : stateId ∈ monitor.pendingStates) :
    stateId ∈ (pollBridge monitor completed).2.pendingStates ∨
      ∃ response ∈ (pollBridge monitor completed).1, response.stateId = stateId := by
  induction completed generalizing monitor with
  | nil => exact .inl pending
  | cons response completed inductionHypothesis =>
    unfold pollBridge
    split
    next delivered =>
      by_cases same : response.stateId = stateId
      · exact .inr ⟨response, List.mem_cons_self, same⟩
      · rcases inductionHypothesis
          { monitor with pendingStates := monitor.pendingStates.erase response.stateId }
          (Finset.mem_erase.mpr ⟨Ne.symm same, pending⟩) with still | ⟨later, member, laterSame⟩
        · exact .inl still
        · exact .inr ⟨later, List.mem_cons_of_mem _ member, laterSame⟩
    next => exact inductionHypothesis monitor pending

/-- Every delivered response was pending before the poll. -/
theorem pending_of_polled {response : LlmResponse S} (completed : List (LlmResponse S))
    (delivered : response ∈ (pollBridge monitor completed).1) :
    response.stateId ∈ monitor.pendingStates ∧ response ∈ completed := by
  induction completed generalizing monitor with
  | nil => simp [pollBridge] at delivered
  | cons first completed inductionHypothesis =>
    unfold pollBridge at delivered
    split at delivered
    next firstPending =>
      rcases List.mem_cons.mp delivered with rfl | later
      · exact ⟨firstPending, List.mem_cons_self⟩
      · obtain ⟨pending, member⟩ := inductionHypothesis _ later
        exact ⟨Finset.mem_of_mem_erase pending, List.mem_cons_of_mem _ member⟩
    next =>
      obtain ⟨pending, member⟩ := inductionHypothesis _ delivered
      exact ⟨pending, List.mem_cons_of_mem _ member⟩

end LlmTriggerMonitor

end CutPlan.Search
