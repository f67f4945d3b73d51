import CutPlan.Controller.IterationRegistry
import CutPlan.Controller.RunRecorder
import Mathlib.Algebra.Order.BigOperators.Group.List
import Mathlib.Algebra.Order.Ring.Nat

/-! # Usable samples of stale requests

The handlers of requests between the registry and the recorder: a handler looks for the last time whether
its iteration is active, and then tells the recorder what has become of the request.
-/

namespace CutPlan.Controller

open CutPlan.Lib
open scoped CutPlan.Lib.Json

/-- How the body of a handler ends, before the last look at the registry. -/
inductive Outcome where
  | mock
  | model (samples : List SampleResult)
  | promptError (error : String)
  | internalError (error : String)
  | stale (error : String)
  deriving DecidableEq

namespace Outcome

/-- Combining no samples at all raises an error. -/
def result : Outcome → FinishedRequest
  | .mock => ⟨.mock, 0, 0, ""⟩
  | .model samples =>
    match primarySample samples with
    | some primary =>
      ⟨primary.status, samples.length, (usableIndices samples).length, primary.error.getD ""⟩
    | none => ⟨.internalError, 0, 0, "IndexError: list index out of range"⟩
  | .promptError error => ⟨.promptError, 0, 0, error⟩
  | .internalError error => ⟨.internalError, 0, 0, error⟩
  | .stale error => ⟨.staleIteration, 0, 0, error⟩

/-- The last look at the registry. -/
def checked (outcome : Outcome) (active : Bool) : FinishedRequest :=
  if outcome.result.status ≠ .staleIteration ∧ active = false then
    { outcome.result with
      status := .staleIteration
      usableSampleCount := 0
      error := "iteration ended before HTTP response" }
  else outcome.result

theorem result_usable {outcome : Outcome} (usable : 0 < outcome.result.usableSampleCount) :
    outcome.result.status = .ok ∨ outcome.result.status = .partialPlan := by
  cases outcome with
  | model samples =>
    have someUsable : usableIndices samples ≠ [] := by
      intro isEmpty
      simp only [result] at usable
      split at usable
      · simp [isEmpty] at usable
      · simp at usable
    obtain ⟨primary, isPrimary, isUsable⟩ := primarySample_usable someUsable
    rw [result, isPrimary]
    exact status_of_usable isUsable
  | mock => simp [result] at usable
  | promptError error => simp [result] at usable
  | internalError error => simp [result] at usable
  | stale error => simp [result] at usable

theorem checked_usable {outcome : Outcome} {active : Bool}
    (usable : 0 < (outcome.checked active).usableSampleCount) :
    (outcome.checked active).status = .ok ∨ (outcome.checked active).status = .partialPlan := by
  unfold checked at usable ⊢
  split
  · rename_i isStale
    simp [isStale] at usable
  · rename_i notStale
    rw [if_neg notStale] at usable
    exact result_usable usable

end Outcome

inductive Handler where
  | working (runId : String) (iteration : ℤ)
  | responding (result : FinishedRequest)
  | finished
  deriving DecidableEq, Repr

structure ControllerState (Future : Type) where
  registry : RegistryState Future
  recorder : RunRecorder
  handlers : Dictionary String Handler

/-- The end of a phase is a call of the registry and the marking of the rows. -/
inductive ControllerEvent (Future : Type) where
  | registryCall (call : RegistryCall Future)
  | received (requestId runId : String) (iteration : ℤ)
  | checked (requestId : String) (outcome : Outcome)
  | finished (requestId : String)
  | marked (iteration : ℤ) (cancellations : List (String × Bool))

namespace ControllerState

variable {Future : Type} (state : ControllerState Future)

/-- Every request has an id of its own and one handler. -/
def next : ControllerEvent Future → ControllerState Future
  | .registryCall call => { state with registry := state.registry.next call }
  | .received requestId runId iteration =>
    match state.handlers.get? requestId with
    | none =>
      { state with
        recorder := state.recorder.requestReceived requestId iteration
        handlers := state.handlers.insert requestId (.working runId iteration) }
    | some _ => state
  | .checked requestId outcome =>
    match state.handlers.get? requestId with
    | some (.working runId iteration) =>
      { state with
        handlers := state.handlers.insert requestId
          (.responding (outcome.checked (state.registry.registry.isActive runId iteration))) }
    | _ => state
  | .finished requestId =>
    match state.handlers.get? requestId with
    | some (.responding result) =>
      { state with
        recorder := state.recorder.requestFinished requestId result
        handlers := state.handlers.insert requestId .finished }
    | _ => state
  | .marked iteration cancellations =>
    { state with recorder := state.recorder.markIterationStale iteration cancellations }

end ControllerState

def controllerMachine (Future : Type) (runId : String) :
    Machine (ControllerState Future) (ControllerEvent Future) where
  start := ⟨⟨.start runId, []⟩, .start, .empty⟩
  next := ControllerState.next

/-- The numbers of usable samples count requests that are not stale only. -/
structure RunRecorder.UsableSeparate (recorder : RunRecorder) : Prop where
  phase : ∀ phase, (recorder.snapshot.phases phase).usableSamples =
    ((recorder.snapshot.requests.filter fun entry => entry.2.phase = phase ∧ !entry.2.isStale).map
      fun entry => entry.2.usableSampleCount.getD 0).sum
  total : recorder.snapshot.usableSampleCount =
    ((recorder.snapshot.requests.filter fun entry => !entry.2.isStale).map
      fun entry => entry.2.usableSampleCount.getD 0).sum

/-- A handler with usable samples is done before the rows of its phase are marked. -/
def UsableInTime {Future : Type} (state : ControllerState Future) : ControllerEvent Future → Prop
  | .finished requestId => ∀ result, state.handlers.get? requestId = some (.responding result) →
      (state.recorder.row requestId).isStale = true → result.usableSampleCount = 0
  | _ => True

/-! ## Sums -/

theorem sum_filter_eq {α : Type} (items : List α) (keeps : α → Bool) (count : α → ℕ) :
    (items.map count).sum = ((items.filter keeps).map count).sum ↔
      ∀ item ∈ items, keeps item = false → count item = 0 := by
  induction items with
  | nil => simp
  | cons item items inductionHypothesis =>
    have smaller : ((items.filter keeps).map count).sum ≤ (items.map count).sum :=
      (List.filter_sublist.map count).sum_le_sum fun _ _ => Nat.zero_le _
    rw [List.forall_mem_cons, List.filter_cons]
    split
    · rename_i isKept
      rw [List.map_cons, List.map_cons, List.sum_cons, List.sum_cons, Nat.add_left_cancel_iff,
        inductionHypothesis]
      simp [isKept]
    · rename_i notKept
      simp only [List.map_cons, List.sum_cons, ← inductionHypothesis, notKept]
      constructor
      · intro same
        exact ⟨fun _ => by omega, by omega⟩
      · rintro ⟨zero, same⟩
        rw [zero (by simp)]
        omega

namespace RunRecorder

theorem usableSeparate_iff (recorder : RunRecorder) : recorder.UsableSeparate ↔
    ∀ entry ∈ recorder.requests.entries, entry.2.isStale = true → entry.2.usableSampleCount.getD 0 = 0 := by
  have total := sum_filter_eq recorder.requests.entries (fun entry => !entry.2.isStale)
    fun entry => entry.2.usableSampleCount.getD 0
  simp only [Bool.not_eq_false'] at total
  constructor
  · intro separate
    apply total.mp
    rw [← snapshot_usableSampleCount, separate.total, snapshot_requests]
  · intro unused
    refine ⟨?_, ?_⟩
    · intro phase
      rw [snapshot_usableSamples, snapshot_requests]
      have inPhase := sum_filter_eq (recorder.requests.entries.filter (·.2.phase = phase))
        (fun entry => !entry.2.isStale) fun entry => entry.2.usableSampleCount.getD 0
      rw [inPhase.mpr, List.filter_filter]
      · congr 2
        apply List.filter_congr
        intro entry _
        simp [Bool.and_comm]
      · intro entry isEntry stale
        exact unused entry (List.mem_filter.mp isEntry).1 (by simpa using stale)
    · rw [snapshot_usableSampleCount, snapshot_requests]
      exact total.mpr unused

end RunRecorder

/-! ## Runs -/

namespace ControllerState

variable {Future : Type} {state : ControllerState Future}

/-- Rows that the end of a phase would mark have no usable samples, and a handler's usable samples come
with a status that it would leave alone. -/
structure Accounted (state : ControllerState Future) : Prop where
  rows : ∀ requestId row, state.recorder.requests.get? requestId = some row → row.isSettled = false →
    row.usableSampleCount.getD 0 = 0
  results : ∀ requestId result, state.handlers.get? requestId = some (.responding result) →
    0 < result.usableSampleCount → result.status = .ok ∨ result.status = .partialPlan
  fresh : ∀ requestId, state.handlers.get? requestId = none → state.recorder.requests.get? requestId = none

theorem isSettled_of_isStale {row : RequestRow} (stale : row.isStale = true) : row.isSettled = false := by
  obtain isStale | isDiscarded : row.status = some .staleIteration ∨ row.status = some .discardedPhaseEnd := by
    simpa [RequestRow.isStale] using stale
  · rw [RequestRow.isSettled, isStale]
    rfl
  · rw [RequestRow.isSettled, isDiscarded]
    rfl

theorem Accounted.separate (accounted : state.Accounted) : state.recorder.UsableSeparate := by
  rw [RunRecorder.usableSeparate_iff]
  intro entry isEntry stale
  exact accounted.rows entry.1 entry.2 (Dictionary.get?_eq_some.mpr isEntry) (isSettled_of_isStale stale)

theorem accounted_start (runId : String) : (controllerMachine Future runId).start.Accounted where
  rows := by
    intro requestId row isRow
    cases isRow
  results := by
    intro requestId result isHandler
    cases isHandler
  fresh := fun _ _ => rfl

theorem Accounted.received (accounted : state.Accounted) {requestId : String}
    (isNew : state.handlers.get? requestId = none) (runId : String) (iteration : ℤ) :
    Accounted { state with
      recorder := state.recorder.requestReceived requestId iteration
      handlers := state.handlers.insert requestId (.working runId iteration) } where
  rows := by
    intro other row isRow notSettled
    by_cases same : other = requestId
    · subst same
      rw [RunRecorder.get?_requestReceived_self, RunRecorder.row, accounted.fresh _ isNew] at isRow
      cases isRow
      rfl
    · rw [RunRecorder.get?_requestReceived_of_ne same] at isRow
      exact accounted.rows other row isRow notSettled
  results := by
    intro other result isHandler
    by_cases same : other = requestId
    · subst same
      simp at isHandler
    · rw [Dictionary.get?_insert_of_ne same] at isHandler
      exact accounted.results other result isHandler
  fresh := by
    intro other isNone
    by_cases same : other = requestId
    · subst same
      simp at isNone
    · rw [Dictionary.get?_insert_of_ne same] at isNone
      rw [RunRecorder.get?_requestReceived_of_ne same]
      exact accounted.fresh other isNone

theorem Accounted.checked (accounted : state.Accounted) {requestId runId : String} {iteration : ℤ}
    (isWorking : state.handlers.get? requestId = some (.working runId iteration)) (outcome : Outcome)
    (active : Bool) :
    Accounted { state with
      handlers := state.handlers.insert requestId (.responding (outcome.checked active)) } where
  rows := accounted.rows
  results := by
    intro other result isHandler
    by_cases same : other = requestId
    · subst same
      rw [Dictionary.get?_insert_self] at isHandler
      cases isHandler
      exact Outcome.checked_usable
    · rw [Dictionary.get?_insert_of_ne same] at isHandler
      exact accounted.results other result isHandler
  fresh := by
    intro other isNone
    by_cases same : other = requestId
    · subst same
      simp at isNone
    · rw [Dictionary.get?_insert_of_ne same] at isNone
      exact accounted.fresh other isNone

theorem Accounted.finished (accounted : state.Accounted) {requestId : String} {result : FinishedRequest}
    (isResponding : state.handlers.get? requestId = some (.responding result))
    (inTime : (state.recorder.row requestId).isStale = true → result.usableSampleCount = 0) :
    Accounted { state with
      recorder := state.recorder.requestFinished requestId result
      handlers := state.handlers.insert requestId .finished } where
  rows := by
    intro other row isRow notSettled
    by_cases same : other = requestId
    · subst same
      rw [RunRecorder.requestFinished, Dictionary.get?_insert_self] at isRow
      cases isRow
      by_cases stale : (state.recorder.row other).isStale = true
      · simp [inTime stale]
      · rw [if_neg stale] at notSettled
        by_contra usable
        have isUsable : 0 < result.usableSampleCount := Nat.pos_of_ne_zero (by simpa using usable)
        obtain isOk | isPartial := accounted.results other result isResponding isUsable
        · simp [RequestRow.isSettled, isOk] at notSettled
        · simp [RequestRow.isSettled, isPartial] at notSettled
    · rw [RunRecorder.get?_requestFinished_of_ne same] at isRow
      exact accounted.rows other row isRow notSettled
  results := by
    intro other result' isHandler
    by_cases same : other = requestId
    · subst same
      simp at isHandler
    · rw [Dictionary.get?_insert_of_ne same] at isHandler
      exact accounted.results other result' isHandler
  fresh := by
    intro other isNone
    by_cases same : other = requestId
    · subst same
      simp at isNone
    · rw [Dictionary.get?_insert_of_ne same] at isNone
      rw [RunRecorder.get?_requestFinished_of_ne same]
      exact accounted.fresh other isNone

theorem Accounted.marked (accounted : state.Accounted) (iteration : ℤ)
    (cancellations : List (String × Bool)) :
    Accounted { state with recorder := state.recorder.markIterationStale iteration cancellations } where
  rows := by
    intro requestId row isRow notSettled
    simp only [RunRecorder.markIterationStale, Dictionary.get?_mapValues, Option.map_eq_some_iff] at isRow
    obtain ⟨old, isOld, rfl⟩ := isRow
    split at notSettled
    · rename_i otherPhase
      rw [if_pos otherPhase]
      exact accounted.rows requestId old isOld notSettled
    · rename_i samePhase
      rw [if_neg samePhase]
      split at notSettled
      · rename_i isSettled
        rw [isSettled] at notSettled
        cases notSettled
      · rename_i unsettled
        rw [if_neg unsettled]
        exact accounted.rows requestId old isOld (by simpa using unsettled)
  results := accounted.results
  fresh := by
    intro requestId isNone
    simp only [RunRecorder.markIterationStale, Dictionary.get?_mapValues, accounted.fresh requestId isNone]
    rfl

theorem Accounted.next (accounted : state.Accounted) {event : ControllerEvent Future}
    (inTime : UsableInTime state event) : (state.next event).Accounted := by
  cases event with
  | registryCall call => exact ⟨accounted.rows, accounted.results, accounted.fresh⟩
  | received requestId runId iteration =>
    simp only [ControllerState.next]
    split
    · rename_i isNew
      exact accounted.received isNew runId iteration
    · exact accounted
  | checked requestId outcome =>
    simp only [ControllerState.next]
    split
    · rename_i isWorking
      exact accounted.checked isWorking outcome _
    · exact accounted
  | finished requestId =>
    simp only [ControllerState.next]
    split
    · rename_i result isResponding
      exact accounted.finished isResponding (inTime result isResponding)
    · exact accounted
  | marked iteration cancellations => exact accounted.marked iteration cancellations

/-- A late handler's usable samples show in the table. -/
theorem inTime_of_separate {event : ControllerEvent Future}
    (separate : (state.next event).recorder.UsableSeparate) : UsableInTime state event := by
  cases event with
  | finished requestId =>
    intro result isResponding stale
    rw [RunRecorder.usableSeparate_iff] at separate
    have inserted : (state.next (.finished requestId)).recorder =
        state.recorder.requestFinished requestId result := by
      simp only [ControllerState.next, isResponding]
    rw [inserted] at separate
    have isEntry := Dictionary.get?_eq_some.mp
      (@RunRecorder.get?_requestFinished state.recorder requestId result)
    have unused := separate _ isEntry
    simp only [stale, if_true, Option.getD_some] at unused
    exact unused stale
  | registryCall _ | received _ _ _ | checked _ _ | marked _ _ => trivial

end ControllerState

/-- The counts of usable samples leave out stale requests in every state of a run exactly if every handler
with usable samples is done before its row is marked. -/
theorem usableSeparate_iff_inTime {Future : Type} (runId : String) (events : List (ControllerEvent Future)) :
    (∀ first second, events = first ++ second →
      ((controllerMachine Future runId).run first).recorder.UsableSeparate) ↔
      (controllerMachine Future runId).StepsMeet UsableInTime (controllerMachine Future runId).start events :=
  (controllerMachine Future runId).stepsMeet_iff_of_invariant ControllerState.Accounted
    (fun state => state.recorder.UsableSeparate) (ControllerState.accounted_start runId)
    (fun _ accounted => accounted.separate) (fun _ _ inTime accounted => accounted.next inTime)
    (fun _ _ _ separate => ControllerState.inTime_of_separate separate) events

def halfSecond : Json.NumberText :=
  ⟨false, ⟨Json.asciiText "0", by decide⟩, some ⟨Json.asciiText "5", by decide⟩, none⟩

/-- The phase ends between the last look at the registry and the record of the request. -/
def lateFinish : List (ControllerEvent Unit) := [
  .registryCall (.startIteration 1),
  .received "request" "run" 1,
  .checked "request" (.model [.processed ⟨1, halfSecond, none⟩
    ⟨.ok, ["(lift hoist crate)"], 1, 1, none, none, some true⟩]),
  .registryCall (.endIteration 1 fun _ => false),
  .marked 1 [],
  .finished "request"]

/-- The stale request counts a usable sample. -/
theorem lateFinish_not_separate : ¬ ((controllerMachine Unit "run").run lateFinish).recorder.UsableSeparate := by
  intro separate
  have total := separate.total
  have counted : ((controllerMachine Unit "run").run lateFinish).recorder.snapshot.usableSampleCount = 1 := by
    decide +kernel
  have live : ((((controllerMachine Unit "run").run lateFinish).recorder.snapshot.requests.filter
      fun entry => !entry.2.isStale).map fun entry => entry.2.usableSampleCount.getD 0).sum = 0 := by
    decide +kernel
  omega

end CutPlan.Controller
