import CutPlan.Controller.RunRecorder

/-! # Stable outcomes

Which recorded outcomes survive the end of their phase.
-/

namespace CutPlan.Controller

open CutPlan.Lib

inductive RecorderEvent where
  | received (requestId : String) (iteration : ℤ)
  | finished (requestId : String) (result : FinishedRequest)
  | phaseEnd (iteration : ℤ) (cancellations : List (String × Bool))
  deriving DecidableEq, Repr

namespace RecorderEvent

def receivedId : RecorderEvent → Option String
  | .received requestId _ => some requestId
  | _ => none

def finishedId : RecorderEvent → Option String
  | .finished requestId _ => some requestId
  | _ => none

def EndsPhase (iteration : ℤ) : RecorderEvent → Prop
  | .phaseEnd ended _ => ended = iteration
  | _ => False

end RecorderEvent

def RunRecorder.next (recorder : RunRecorder) : RecorderEvent → RunRecorder
  | .received requestId iteration => recorder.requestReceived requestId iteration
  | .finished requestId result => recorder.requestFinished requestId result
  | .phaseEnd iteration cancellations => recorder.markIterationStale iteration cancellations

def recorderMachine : Machine RunRecorder RecorderEvent where
  start := .start
  next := RunRecorder.next

/-- Requests have distinct ids, and each is received before it is finished, with a terminal status. -/
structure ProperEvents (events : List RecorderEvent) : Prop where
  distinctReceived : (events.filterMap RecorderEvent.receivedId).Nodup
  distinctFinished : (events.filterMap RecorderEvent.finishedId).Nodup
  receivedFirst : ∀ earlier requestId result later, events = earlier ++ .finished requestId result :: later →
    ∃ iteration, .received requestId iteration ∈ earlier
  terminal : ∀ requestId result, .finished requestId result ∈ events → result.status ≠ .received

/-- A request that was finished before the end of its phase keeps its status in the table of requests, from
which the phases are counted; the end of a phase changes unfinished requests only. -/
structure OutcomesStable (events : List RecorderEvent) : Prop where
  kept : ∀ earlier requestId iteration result later,
    events = earlier ++ .finished requestId result :: later →
    .received requestId iteration ∈ earlier → (∀ event ∈ earlier, ¬ event.EndsPhase iteration) →
    ∃ row, (requestId, row) ∈ (recorderMachine.run events).snapshot.requests ∧
      row.iteration = some iteration ∧ row.status = some result.status
  counted : ∀ iteration, ((recorderMachine.run events).snapshot.phases iteration).staleRequests =
    ((recorderMachine.run events).snapshot.requests.filter
      fun entry => entry.2.phase = iteration ∧ entry.2.isStale).length
  onlyUnfinished : ∀ earlier iteration cancellations later,
    events = earlier ++ .phaseEnd iteration cancellations :: later → ∀ requestId row row',
    (recorderMachine.run earlier).requests.get? requestId = some row →
    (recorderMachine.run (earlier ++ [.phaseEnd iteration cancellations])).requests.get? requestId = some row' →
    row'.status ≠ row.status → ∀ result, .finished requestId result ∉ earlier

/-- A result that the end of a phase leaves as it is. -/
def FinishedRequest.Listed (result : FinishedRequest) : Prop :=
  result.status ∈ [.ok, .partialPlan, .mock, .promptError, .llmError, .internalError, .staleIteration]

instance (result : FinishedRequest) : Decidable result.Listed :=
  inferInstanceAs (Decidable (result.status ∈ _))

/-- Every request that is finished before an end of its phase, and is not stale already, has one of the
statuses of the list. -/
def FinishesListed (events : List RecorderEvent) : Prop :=
  ∀ earlier requestId iteration result later,
    events = earlier ++ .finished requestId result :: later →
    (∃ row, (recorderMachine.run earlier).requests.get? requestId = some row ∧
      row.iteration = some iteration ∧ row.isStale = false) →
    (∃ event ∈ later, event.EndsPhase iteration) → result.Listed

/-! ## Rows -/

namespace RunRecorder

variable {recorder : RunRecorder} {requestId : String} {row : RequestRow}

theorem row_next_untouched (event : RecorderEvent) (isRow : recorder.requests.get? requestId = some row)
    (notReceived : event.receivedId ≠ some requestId) (notFinished : event.finishedId ≠ some requestId)
    (notEnded : ¬ event.EndsPhase row.phase) :
    (recorder.next event).requests.get? requestId = some row := by
  cases event with
  | received other iteration =>
    have different : requestId ≠ other := fun same => notReceived (by rw [same]; rfl)
    exact (get?_requestReceived_of_ne different iteration).trans isRow
  | finished other result =>
    have different : requestId ≠ other := fun same => notFinished (by rw [same]; rfl)
    exact (get?_requestFinished_of_ne different result).trans isRow
  | phaseEnd iteration cancellations =>
    rw [next, get?_markIterationStale isRow, if_pos]
    exact fun same => notEnded same.symm

theorem row_next_kept (event : RecorderEvent) (isRow : recorder.requests.get? requestId = some row)
    (settled : row.isSettled = true ∨ row.status = some .staleIteration)
    (notReceived : event.receivedId ≠ some requestId) (notFinished : event.finishedId ≠ some requestId) :
    ∃ row', (recorder.next event).requests.get? requestId = some row' ∧ row'.status = row.status ∧
      row'.iteration = row.iteration := by
  cases event with
  | received other iteration =>
    exact ⟨row, row_next_untouched _ isRow notReceived notFinished id, rfl, rfl⟩
  | finished other result =>
    exact ⟨row, row_next_untouched _ isRow notReceived notFinished id, rfl, rfl⟩
  | phaseEnd iteration cancellations =>
    rw [next, get?_markIterationStale isRow]
    refine ⟨_, rfl, ?_⟩
    split
    · exact ⟨rfl, rfl⟩
    · split
      · exact ⟨rfl, rfl⟩
      · rename_i notSettled
        obtain isSettled | isStale := settled
        · exact absurd isSettled notSettled
        · exact ⟨isStale.symm, rfl⟩

theorem row_runFrom_untouched {events : List RecorderEvent}
    (isRow : recorder.requests.get? requestId = some row)
    (notReceived : requestId ∉ events.filterMap RecorderEvent.receivedId)
    (notFinished : requestId ∉ events.filterMap RecorderEvent.finishedId)
    (notEnded : ∀ event ∈ events, ¬ event.EndsPhase row.phase) :
    (recorderMachine.runFrom recorder events).requests.get? requestId = some row := by
  induction events generalizing recorder with
  | nil => exact isRow
  | cons event events inductionHypothesis =>
    simp only [List.mem_filterMap, List.mem_cons, exists_eq_or_imp, not_or] at notReceived notFinished
    rw [List.forall_mem_cons] at notEnded
    apply inductionHypothesis (row_next_untouched _ isRow notReceived.1 notFinished.1 notEnded.1)
    · simpa using notReceived.2
    · simpa using notFinished.2
    · exact notEnded.2

theorem row_runFrom_kept {events : List RecorderEvent} (isRow : recorder.requests.get? requestId = some row)
    (settled : row.isSettled = true ∨ row.status = some .staleIteration)
    (notReceived : requestId ∉ events.filterMap RecorderEvent.receivedId)
    (notFinished : requestId ∉ events.filterMap RecorderEvent.finishedId) :
    ∃ row', (recorderMachine.runFrom recorder events).requests.get? requestId = some row' ∧
      row'.status = row.status ∧ row'.iteration = row.iteration := by
  induction events generalizing recorder row with
  | nil => exact ⟨row, isRow, rfl, rfl⟩
  | cons event events inductionHypothesis =>
    simp only [List.mem_filterMap, List.mem_cons, exists_eq_or_imp, not_or] at notReceived notFinished
    obtain ⟨first, isFirst, sameStatus, sameIteration⟩ :=
      row_next_kept _ isRow settled notReceived.1 notFinished.1
    have firstSettled : first.isSettled = true ∨ first.status = some .staleIteration := by
      rw [RequestRow.isSettled, sameStatus]
      exact settled
    obtain ⟨row', isRow', status, iteration⟩ :=
      inductionHypothesis isFirst firstSettled (by simpa using notReceived.2) (by simpa using notFinished.2)
    exact ⟨row', isRow', status.trans sameStatus, iteration.trans sameIteration⟩

/-- Until a request is finished its row is received or stale. -/
def Waits (iteration : ℤ) (row : RequestRow) : Prop :=
  row.iteration = some iteration ∧ (row.status = some .received ∨ row.status = some .staleIteration)

/-- A row keeps its iteration, and waits until its request is finished. -/
theorem row_runFrom_waits {events : List RecorderEvent} (isRow : recorder.requests.get? requestId = some row)
    (notReceived : requestId ∉ events.filterMap RecorderEvent.receivedId)
    (notFinished : requestId ∉ events.filterMap RecorderEvent.finishedId) :
    ∃ row', (recorderMachine.runFrom recorder events).requests.get? requestId = some row' ∧
      row'.iteration = row.iteration ∧ ∀ iteration, Waits iteration row → Waits iteration row' := by
  induction events generalizing recorder row with
  | nil => exact ⟨row, isRow, rfl, fun _ => id⟩
  | cons event events inductionHypothesis =>
    simp only [List.mem_filterMap, List.mem_cons, exists_eq_or_imp, not_or] at notReceived notFinished
    have step : ∃ first, (recorder.next event).requests.get? requestId = some first ∧
        first.iteration = row.iteration ∧ ∀ iteration, Waits iteration row → Waits iteration first := by
      cases event with
      | received other iteration =>
        exact ⟨row, row_next_untouched _ isRow notReceived.1 notFinished.1 id, rfl, fun _ => id⟩
      | finished other result =>
        exact ⟨row, row_next_untouched _ isRow notReceived.1 notFinished.1 id, rfl, fun _ => id⟩
      | phaseEnd iteration cancellations =>
        rw [next, get?_markIterationStale isRow]
        refine ⟨_, rfl, ?_⟩
        split
        · exact ⟨rfl, fun _ => id⟩
        · split
          · exact ⟨rfl, fun _ => id⟩
          · exact ⟨rfl, fun _ waits => ⟨waits.1, .inr rfl⟩⟩
    obtain ⟨first, isFirst, sameIteration, waits⟩ := step
    obtain ⟨row', isRow', iteration, waits'⟩ :=
      inductionHypothesis isFirst (by simpa using notReceived.2) (by simpa using notFinished.2)
    exact ⟨row', isRow', iteration.trans sameIteration, fun _ isWaiting => waits' _ (waits _ isWaiting)⟩

end RunRecorder

/-! ## Runs -/

namespace ProperEvents

variable {events : List RecorderEvent}

/-- Around the receipt of a request there is no other one, and before it the request is not finished. -/
theorem around_received (proper : ProperEvents events) {earlier later : List RecorderEvent}
    {requestId : String} {iteration : ℤ} (split : events = earlier ++ .received requestId iteration :: later) :
    requestId ∉ earlier.filterMap RecorderEvent.receivedId ∧
      requestId ∉ later.filterMap RecorderEvent.receivedId := by
  have distinct := proper.distinctReceived
  rw [split, List.filterMap_append, List.filterMap_cons, List.nodup_append] at distinct
  refine ⟨fun isEarlier => ?_, (List.nodup_cons.mp distinct.2.1).1⟩
  exact distinct.2.2 _ isEarlier _ (List.mem_cons_self ..) rfl

theorem around_finished (proper : ProperEvents events) {earlier later : List RecorderEvent}
    {requestId : String} {result : FinishedRequest}
    (split : events = earlier ++ .finished requestId result :: later) :
    requestId ∉ earlier.filterMap RecorderEvent.finishedId ∧
      requestId ∉ later.filterMap RecorderEvent.finishedId := by
  have distinct := proper.distinctFinished
  rw [split, List.filterMap_append, List.filterMap_cons, List.nodup_append] at distinct
  refine ⟨fun isEarlier => ?_, (List.nodup_cons.mp distinct.2.1).1⟩
  exact distinct.2.2 _ isEarlier _ (List.mem_cons_self ..) rfl

theorem received_once (proper : ProperEvents events) {earlier later : List RecorderEvent}
    {requestId : String} {result : FinishedRequest}
    (split : events = earlier ++ .finished requestId result :: later) :
    requestId ∉ later.filterMap RecorderEvent.receivedId := by
  obtain ⟨iteration, isReceived⟩ := proper.receivedFirst earlier requestId result later split
  obtain ⟨before, between, isEarlier⟩ := List.append_of_mem isReceived
  have splitReceived : events =
      before ++ .received requestId iteration :: (between ++ .finished requestId result :: later) := by
    rw [split, isEarlier]
    simp
  have absent := (proper.around_received splitReceived).2
  rw [List.filterMap_append, List.mem_append, not_or] at absent
  simpa [RecorderEvent.receivedId] using absent.2

/-- The row of a request that has been received and not finished. -/
theorem waiting_row (proper : ProperEvents events) {earlier later : List RecorderEvent}
    {requestId : String} {result : FinishedRequest}
    (split : events = earlier ++ .finished requestId result :: later) :
    ∃ row iteration, (recorderMachine.run earlier).requests.get? requestId = some row ∧
      RunRecorder.Waits iteration row := by
  obtain ⟨iteration, isReceived⟩ := proper.receivedFirst earlier requestId result later split
  obtain ⟨before, between, isEarlier⟩ := List.append_of_mem isReceived
  have splitReceived : events =
      before ++ .received requestId iteration :: (between ++ .finished requestId result :: later) := by
    rw [split, isEarlier]
    simp
  have notReceived := (proper.around_received splitReceived).2
  have notFinished := (proper.around_finished split).1
  rw [List.filterMap_append, List.mem_append, not_or] at notReceived
  rw [isEarlier, List.filterMap_append, List.mem_append, not_or] at notFinished
  obtain ⟨row, isRow, _, waits⟩ := RunRecorder.row_runFrom_waits
    (@RunRecorder.get?_requestReceived_self (recorderMachine.run before) _ iteration)
    notReceived.1 notFinished.2
  refine ⟨row, iteration, ?_, waits iteration ⟨rfl, .inl rfl⟩⟩
  rw [isEarlier, Machine.run, Machine.runFrom_append]
  exact isRow

/-- The row of a request that has been received and not finished, while its phase goes on. -/
theorem received_row (proper : ProperEvents events) {earlier later : List RecorderEvent}
    {requestId : String} {iteration : ℤ} {result : FinishedRequest}
    (split : events = earlier ++ .finished requestId result :: later)
    (isReceived : .received requestId iteration ∈ earlier)
    (running : ∀ event ∈ earlier, ¬ event.EndsPhase iteration) :
    ∃ row, (recorderMachine.run earlier).requests.get? requestId = some row ∧
      row.iteration = some iteration ∧ row.status = some .received := by
  obtain ⟨before, between, isEarlier⟩ := List.append_of_mem isReceived
  have splitReceived : events =
      before ++ .received requestId iteration :: (between ++ .finished requestId result :: later) := by
    rw [split, isEarlier]
    simp
  have notReceived := (proper.around_received splitReceived).2
  have notFinished := (proper.around_finished split).1
  rw [List.filterMap_append, List.mem_append, not_or] at notReceived
  rw [isEarlier, List.filterMap_append, List.mem_append, not_or] at notFinished
  rw [isEarlier] at running
  refine ⟨{ (recorderMachine.run before).row requestId with
    iteration := some iteration, status := some .received }, ?_, rfl, rfl⟩
  rw [isEarlier, Machine.run, Machine.runFrom_append]
  apply RunRecorder.row_runFrom_untouched (RunRecorder.get?_requestReceived_self iteration)
  · exact notReceived.1
  · exact notFinished.2
  · intro event isEvent
    exact running event (List.mem_append_right _ (List.mem_cons_of_mem _ isEvent))

/-- The row of a request that has just been finished. -/
theorem finished_row {recorder : RunRecorder} {requestId : String} {row : RequestRow}
    (isRow : recorder.requests.get? requestId = some row) (result : FinishedRequest) :
    ∃ finished, (recorder.next (.finished requestId result)).requests.get? requestId = some finished ∧
      finished.iteration = row.iteration ∧
      finished.status = if row.isStale then row.status else some result.status :=
  ⟨_, RunRecorder.get?_requestFinished_self isRow result, rfl, rfl⟩

end ProperEvents

theorem listed_iff {row : RequestRow} {result : FinishedRequest} (hasStatus : row.status = some result.status) :
    result.Listed ↔ row.isSettled = true ∨ row.status = some .staleIteration := by
  rw [FinishedRequest.Listed, RequestRow.isSettled, hasStatus]
  cases result.status <;> decide

theorem exists_first_end {events : List RecorderEvent} {iteration : ℤ}
    (ends : ∃ event ∈ events, event.EndsPhase iteration) :
    ∃ between cancellations rest, events = between ++ .phaseEnd iteration cancellations :: rest ∧
      ∀ event ∈ between, ¬ event.EndsPhase iteration := by
  induction events with
  | nil => simp at ends
  | cons event events inductionHypothesis =>
    by_cases isEnd : event.EndsPhase iteration
    · cases event with
      | phaseEnd ended cancellations =>
        obtain rfl : ended = iteration := isEnd
        exact ⟨[], cancellations, events, rfl, by simp⟩
      | received _ _ | finished _ _ => exact isEnd.elim
    · obtain ⟨later, isLater, isLaterEnd⟩ := ends
      have inRest : later ∈ events := by
        obtain rfl | inRest := List.mem_cons.mp isLater
        · exact absurd isLaterEnd isEnd
        · exact inRest
      obtain ⟨between, cancellations, rest, split, running⟩ := inductionHypothesis ⟨later, inRest, isLaterEnd⟩
      refine ⟨event :: between, cancellations, rest, by rw [split]; rfl, ?_⟩
      rw [List.forall_mem_cons]
      exact ⟨isEnd, running⟩

variable {events : List RecorderEvent}

theorem OutcomesStable.finishesListed (proper : ProperEvents events) (stable : OutcomesStable events) :
    FinishesListed events := by
  intro earlier requestId iteration result later split ⟨row, isRow, hasIteration, notStale⟩ ends
  by_contra notListed
  obtain ⟨between, cancellations, rest, isLater, running⟩ := exists_first_end ends
  obtain ⟨finished, isFinished, sameIteration, status⟩ := ProperEvents.finished_row isRow result
  rw [notStale, if_neg (by simp)] at status
  have hasPhase : finished.phase = iteration := by
    rw [RequestRow.phase, sameIteration, hasIteration]
    rfl
  have notReceived := proper.received_once split
  have notFinished := (proper.around_finished split).2
  rw [isLater, List.filterMap_append, List.mem_append, not_or] at notReceived notFinished
  -- At the first end of its phase the finished request is marked.
  have before : (recorderMachine.run (earlier ++ .finished requestId result :: between)).requests.get?
      requestId = some finished := by
    rw [Machine.run, Machine.runFrom_append, Machine.runFrom_cons]
    refine RunRecorder.row_runFrom_untouched isFinished notReceived.1 notFinished.1 ?_
    rwa [hasPhase]
  have after : (recorderMachine.run ((earlier ++ .finished requestId result :: between) ++
      [.phaseEnd iteration cancellations])).requests.get? requestId =
        some (finished.markStale (cancellations.lookup requestId)) := by
    have marked := RunRecorder.get?_markIterationStale before iteration cancellations
    rw [Machine.run, Machine.runFrom_append]
    rw [if_neg (by simp [hasPhase]), if_neg] at marked
    · exact marked
    · exact fun settled => notListed ((listed_iff status).mpr (.inl settled))
  refine stable.onlyUnfinished (earlier ++ .finished requestId result :: between) iteration cancellations rest
    (by simp [split, isLater]) requestId _ _ before after ?_ result (by simp)
  intro same
  exact notListed ((listed_iff status).mpr (.inr same.symm))

theorem FinishesListed.outcomesStable (proper : ProperEvents events) (listed : FinishesListed events) :
    OutcomesStable events where
  kept := by
    intro earlier requestId iteration result later split isReceived running
    obtain ⟨row, isRow, hasIteration, isWaiting⟩ := proper.received_row split isReceived running
    have notStale : row.isStale = false := by simp [RequestRow.isStale, isWaiting]
    obtain ⟨finished, isFinished, sameIteration, status⟩ := ProperEvents.finished_row isRow result
    rw [notStale, if_neg (by simp)] at status
    have notReceived := proper.received_once split
    have notFinished := (proper.around_finished split).2
    have final : ∃ row', (recorderMachine.run events).requests.get? requestId = some row' ∧
        row'.status = finished.status ∧ row'.iteration = finished.iteration := by
      rw [split, Machine.run, Machine.runFrom_append, Machine.runFrom_cons]
      by_cases ends : ∃ event ∈ later, event.EndsPhase iteration
      · have isListed := listed _ _ _ _ _ split ⟨row, isRow, hasIteration, notStale⟩ ends
        exact RunRecorder.row_runFrom_kept isFinished ((listed_iff status).mp isListed) notReceived notFinished
      · refine ⟨finished, ?_, rfl, rfl⟩
        apply RunRecorder.row_runFrom_untouched isFinished notReceived notFinished
        have hasPhase : finished.phase = iteration := by
          rw [RequestRow.phase, sameIteration, hasIteration]
          rfl
        rw [hasPhase]
        intro event isEvent isEnd
        exact ends ⟨event, isEvent, isEnd⟩
    obtain ⟨row', isRow', sameStatus, sameIteration'⟩ := final
    refine ⟨row', ?_, ?_, sameStatus.trans status⟩
    · rw [RunRecorder.snapshot_requests]
      exact Dictionary.get?_eq_some.mp isRow'
    · rw [sameIteration', sameIteration, hasIteration]
  counted := by
    intro iteration
    rw [RunRecorder.snapshot_staleRequests, RunRecorder.snapshot_requests]
  onlyUnfinished := by
    intro earlier iteration cancellations later split requestId row row' isRow isRow' changed result isFinished
    obtain ⟨before, between, isEarlier⟩ := List.append_of_mem isFinished
    have splitFinished : events =
        before ++ .finished requestId result :: (between ++ .phaseEnd iteration cancellations :: later) := by
      rw [split, isEarlier]
      simp
    obtain ⟨waiting, own, isWaiting, waits⟩ := proper.waiting_row splitFinished
    obtain ⟨finished, isFinished', sameIteration, status⟩ := ProperEvents.finished_row isWaiting result
    have notReceived := proper.received_once splitFinished
    have notFinished := (proper.around_finished splitFinished).2
    have atEnd : (recorderMachine.run (earlier ++ [.phaseEnd iteration cancellations])).requests.get? requestId =
        some row' := isRow'
    rw [Machine.run, Machine.runFrom_append] at atEnd
    by_cases keeps : finished.isSettled = true ∨ finished.status = some .staleIteration
    · -- Neither the events since it was finished nor the end of the phase change its status.
      rw [List.filterMap_append, List.mem_append, not_or] at notReceived notFinished
      obtain ⟨found, isFound, sameStatus, _⟩ :=
        RunRecorder.row_runFrom_kept isFinished' keeps notReceived.1 notFinished.1
      have foundRow : (recorderMachine.run earlier).requests.get? requestId = some found := by
        rw [isEarlier, Machine.run, Machine.runFrom_append, Machine.runFrom_cons]
        exact isFound
      rw [isRow] at foundRow
      cases foundRow
      have rowKeeps : row.isSettled = true ∨ row.status = some .staleIteration := by
        rw [RequestRow.isSettled, sameStatus]
        exact keeps
      obtain ⟨final, isFinal, finalStatus, _⟩ :=
        RunRecorder.row_next_kept (.phaseEnd iteration cancellations) isRow rowKeeps (by simp
          [RecorderEvent.receivedId]) (by simp [RecorderEvent.finishedId])
      have same := atEnd.symm.trans isFinal
      cases same
      exact changed finalStatus
    · -- Otherwise the phase that ends is another one.
      have notStale : waiting.isStale = false := by
        obtain received | stale := waits.2
        · simp [RequestRow.isStale, received]
        · have isStale : waiting.isStale = true := by simp [RequestRow.isStale, stale]
          rw [if_pos isStale] at status
          exact absurd (.inr (status.trans stale)) keeps
      rw [notStale, if_neg (by simp)] at status
      have otherPhase : own ≠ iteration := by
        rintro rfl
        apply keeps
        apply (listed_iff status).mp
        refine listed _ _ own _ _ splitFinished ⟨waiting, isWaiting, waits.1, notStale⟩ ?_
        exact ⟨_, List.mem_append_right _ (List.mem_cons_self ..), rfl⟩
      rw [List.filterMap_append, List.mem_append, not_or] at notReceived notFinished
      obtain ⟨found, isFound, foundIteration, _⟩ :=
        RunRecorder.row_runFrom_waits isFinished' notReceived.1 notFinished.1
      have foundRow : (recorderMachine.run earlier).requests.get? requestId = some found := by
        rw [isEarlier, Machine.run, Machine.runFrom_append, Machine.runFrom_cons]
        exact isFound
      rw [isRow] at foundRow
      cases foundRow
      have hasPhase : row.phase = own := by
        rw [RequestRow.phase, foundIteration, sameIteration, waits.1]
        rfl
      have untouched := RunRecorder.row_next_untouched (.phaseEnd iteration cancellations) isRow
        (by simp [RecorderEvent.receivedId]) (by simp [RecorderEvent.finishedId])
        (by rw [hasPhase]; exact fun same => otherPhase same.symm)
      have same := atEnd.symm.trans untouched
      cases same
      exact changed rfl

/-- The outcomes are stable exactly in the runs where every request that is finished before an end of its
phase has a listed status. -/
theorem outcomesStable_iff (proper : ProperEvents events) : OutcomesStable events ↔ FinishesListed events :=
  ⟨fun stable => stable.finishesListed proper, fun listed => listed.outcomesStable proper⟩

/-! ## A request that is finished in time -/

def finishedInTime (status : RequestStatus) : List RecorderEvent :=
  [.received "request" 1, .finished "request" ⟨status, 3, 0, ""⟩, .phaseEnd 1 []]

theorem finishedInTime_proper {status : RequestStatus} (terminal : status ≠ .received) :
    ProperEvents (finishedInTime status) where
  distinctReceived := List.nodup_singleton "request"
  distinctFinished := List.nodup_singleton "request"
  receivedFirst := by
    intro earlier requestId result later split
    cases earlier with
    | nil => simp [finishedInTime] at split
    | cons first earlier =>
      simp only [finishedInTime, List.cons_append, List.cons.injEq] at split
      obtain ⟨rfl, split⟩ := split
      cases earlier with
      | nil =>
        simp only [List.nil_append, List.cons.injEq, RecorderEvent.finished.injEq] at split
        obtain ⟨⟨rfl, _⟩, _⟩ := split
        exact ⟨1, List.mem_singleton_self _⟩
      | cons second earlier =>
        cases earlier with
        | nil => simp at split
        | cons third earlier => simp at split
  terminal := by
    intro requestId result isFinished
    obtain ⟨_, rfl⟩ : requestId = "request" ∧ result = ⟨status, 3, 0, ""⟩ := by
      simpa [finishedInTime] using isFinished
    exact terminal

/-- A parse error that was recorded in time becomes stale at the end of the phase. -/
theorem parse_error_lost :
    ProperEvents (finishedInTime .parseError) ∧ ¬ OutcomesStable (finishedInTime .parseError) := by
  refine ⟨finishedInTime_proper (by decide), fun stable => ?_⟩
  obtain ⟨row, isRow, _, status⟩ := stable.kept [.received "request" 1] "request" 1 ⟨.parseError, 3, 0, ""⟩
    [.phaseEnd 1 []] rfl (by simp) (by simp [RecorderEvent.EndsPhase])
  have final : ∀ entry ∈ (recorderMachine.run (finishedInTime .parseError)).snapshot.requests,
      entry.2.status = some .staleIteration := by decide +kernel
  have isStale := final _ isRow
  rw [status] at isStale
  cases isStale

theorem ok_kept : OutcomesStable (finishedInTime .ok) := by
  apply (outcomesStable_iff (finishedInTime_proper (by decide))).mpr
  intro earlier requestId iteration result later split _ _
  have isFinished : .finished requestId result ∈ finishedInTime .ok := by rw [split]; simp
  obtain ⟨_, rfl⟩ : requestId = "request" ∧ result = ⟨.ok, 3, 0, ""⟩ := by
    simpa [finishedInTime] using isFinished
  decide

end CutPlan.Controller
