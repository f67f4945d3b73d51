import CutPlan.Controller.ModelResponse
import CutPlan.Lib.Dictionary
import CutPlan.Lib.Machine
import Mathlib.Algebra.BigOperators.Group.List.Basic

/-! # Records of requests

The rows that `AnytimeRunRecorder` keeps for the requests, and the tables that it derives from them.
-/

namespace CutPlan.Controller

open CutPlan.Lib

/-- A row of `llm_requests.csv`, with the columns that are used for counting. -/
structure RequestRow where
  iteration : Option ℤ
  status : Option RequestStatus
  sampleCount : Option ℕ
  usableSampleCount : Option ℕ
  modelGenerationsStarted : Option ℕ
  error : String
  deriving DecidableEq, Repr

namespace RequestRow

def empty : RequestRow := ⟨none, none, none, none, none, ""⟩

def isStale (row : RequestRow) : Bool :=
  row.status = some .staleIteration || row.status = some .discardedPhaseEnd

/-- The number that a row without an iteration is counted under. -/
def phase (row : RequestRow) : ℤ :=
  row.iteration.getD (-1)

/-- The statuses that the end of a phase does not touch. -/
def isSettled (row : RequestRow) : Bool :=
  row.status ∈ [some .ok, some .partialPlan, some .mock, some .promptError, some .llmError,
    some .internalError]

def markStale (cancellation : Option Bool) (row : RequestRow) : RequestRow :=
  { row with
    status := some .staleIteration
    error :=
      match cancellation with
      | some accepted => "phase ended; model future cancellation=" ++ (if accepted then "accepted" else "late")
      | none => row.error }

end RequestRow

/-- What `request_finished` is told. -/
structure FinishedRequest where
  status : RequestStatus
  sampleCount : ℕ
  usableSampleCount : ℕ
  error : String
  deriving DecidableEq, Repr

structure RunRecorder where
  requests : Dictionary String RequestRow

namespace RunRecorder

def start : RunRecorder := ⟨.empty⟩

variable (recorder : RunRecorder)

def row (requestId : String) : RequestRow :=
  (recorder.requests.get? requestId).getD .empty

def requestReceived (requestId : String) (iteration : ℤ) : RunRecorder :=
  ⟨recorder.requests.insert requestId
    { recorder.row requestId with iteration := some iteration, status := some .received }⟩

/-- A stale request keeps its status, but not its other columns. -/
def requestFinished (requestId : String) (finished : FinishedRequest) : RunRecorder :=
  let row := recorder.row requestId
  ⟨recorder.requests.insert requestId
    { row with
      status := if row.isStale then row.status else some finished.status
      sampleCount := some finished.sampleCount
      usableSampleCount := some finished.usableSampleCount
      error := finished.error }⟩

def modelStarted (requestId : String) (generationCount : ℕ) : RunRecorder :=
  ⟨recorder.requests.insert requestId
    { recorder.row requestId with modelGenerationsStarted := some generationCount }⟩

def markIterationStale (iteration : ℤ) (cancellations : List (String × Bool)) : RunRecorder :=
  ⟨recorder.requests.mapValues fun requestId row =>
    if row.phase ≠ iteration then row
    else if row.isSettled then row
    else row.markStale (cancellations.lookup requestId)⟩

/-! ## Tables -/

structure PhaseCounts where
  modelGenerations : ℕ
  completedSamples : ℕ
  usableSamples : ℕ
  staleRequests : ℕ
  deriving DecidableEq, Repr

def PhaseCounts.zero : PhaseCounts := ⟨0, 0, 0, 0⟩

/-- The counts of the phases and of the whole run, with the rows of the requests. -/
structure Snapshot where
  phases : ℤ → PhaseCounts
  requests : List (String × RequestRow)
  modelGenerationCount : ℕ
  completedSampleCount : ℕ
  usableSampleCount : ℕ

namespace Snapshot

def empty : Snapshot := ⟨fun _ => .zero, [], 0, 0, 0⟩

def addRow (snapshot : Snapshot) (entry : String × RequestRow) : Snapshot :=
  let row := entry.2
  let counts := snapshot.phases row.phase
  let startedCount := row.modelGenerationsStarted.getD 0
  let sampleCount := row.sampleCount.getD 0
  let usableCount := row.usableSampleCount.getD 0
  { phases := Function.update snapshot.phases row.phase
      { modelGenerations := counts.modelGenerations + startedCount
        completedSamples := counts.completedSamples + sampleCount
        usableSamples := counts.usableSamples + usableCount
        staleRequests := counts.staleRequests + if row.isStale then 1 else 0 }
    requests := snapshot.requests ++ [entry]
    modelGenerationCount := snapshot.modelGenerationCount + startedCount
    completedSampleCount := snapshot.completedSampleCount + sampleCount
    usableSampleCount := snapshot.usableSampleCount + usableCount }

end Snapshot

def snapshot : Snapshot :=
  recorder.requests.entries.foldl Snapshot.addRow .empty

end RunRecorder

/-! ## What the tables count -/

namespace RunRecorder

theorem foldl_addRow (entries : List (String × RequestRow)) (snapshot : Snapshot) :
    let result := entries.foldl Snapshot.addRow snapshot
    result.requests = snapshot.requests ++ entries ∧
      result.usableSampleCount =
        snapshot.usableSampleCount + (entries.map fun entry => entry.2.usableSampleCount.getD 0).sum ∧
      ∀ phase, (result.phases phase).usableSamples = (snapshot.phases phase).usableSamples +
          ((entries.filter (·.2.phase = phase)).map fun entry => entry.2.usableSampleCount.getD 0).sum ∧
        (result.phases phase).staleRequests = (snapshot.phases phase).staleRequests +
          (entries.filter fun entry => entry.2.phase = phase ∧ entry.2.isStale).length := by
  induction entries generalizing snapshot with
  | nil => simp
  | cons entry entries inductionHypothesis =>
    obtain ⟨requests, total, phases⟩ := inductionHypothesis (snapshot.addRow entry)
    refine ⟨?_, ?_, ?_⟩
    · rw [List.foldl_cons, requests]
      simp [Snapshot.addRow]
    · rw [List.foldl_cons, total]
      simp only [Snapshot.addRow, List.map_cons, List.sum_cons]
      omega
    · intro phase
      rw [List.foldl_cons, (phases phase).1, (phases phase).2]
      by_cases samePhase : entry.2.phase = phase
      · subst samePhase
        by_cases stale : entry.2.isStale = true
        · simp [Snapshot.addRow, stale]
          omega
        · simp [Snapshot.addRow, stale]
          omega
      · simp [Snapshot.addRow, samePhase, Function.update_of_ne (Ne.symm samePhase)]

theorem snapshot_requests (recorder : RunRecorder) :
    recorder.snapshot.requests = recorder.requests.entries := by
  exact (foldl_addRow recorder.requests.entries .empty).1

theorem snapshot_usableSampleCount (recorder : RunRecorder) :
    recorder.snapshot.usableSampleCount =
      (recorder.requests.entries.map fun entry => entry.2.usableSampleCount.getD 0).sum := by
  rw [snapshot, (foldl_addRow recorder.requests.entries .empty).2.1]
  exact Nat.zero_add _

theorem snapshot_usableSamples (recorder : RunRecorder) (phase : ℤ) :
    (recorder.snapshot.phases phase).usableSamples =
      ((recorder.requests.entries.filter (·.2.phase = phase)).map
        fun entry => entry.2.usableSampleCount.getD 0).sum := by
  rw [snapshot, ((foldl_addRow recorder.requests.entries .empty).2.2 phase).1]
  exact Nat.zero_add _

theorem snapshot_staleRequests (recorder : RunRecorder) (phase : ℤ) :
    (recorder.snapshot.phases phase).staleRequests =
      (recorder.requests.entries.filter fun entry => entry.2.phase = phase ∧ entry.2.isStale).length := by
  rw [snapshot, ((foldl_addRow recorder.requests.entries .empty).2.2 phase).2]
  exact Nat.zero_add _

/-! ## What a call changes -/

variable {recorder : RunRecorder} {requestId other : String}

theorem get?_requestReceived_self (iteration : ℤ) :
    (recorder.requestReceived requestId iteration).requests.get? requestId =
      some { recorder.row requestId with iteration := some iteration, status := some .received } :=
  Dictionary.get?_insert_self _ _

theorem get?_requestReceived_of_ne (different : other ≠ requestId) (iteration : ℤ) :
    (recorder.requestReceived requestId iteration).requests.get? other = recorder.requests.get? other :=
  Dictionary.get?_insert_of_ne different _

theorem get?_requestFinished_of_ne (different : other ≠ requestId) (finished : FinishedRequest) :
    (recorder.requestFinished requestId finished).requests.get? other = recorder.requests.get? other :=
  Dictionary.get?_insert_of_ne different _

theorem get?_requestFinished (finished : FinishedRequest) :
    (recorder.requestFinished requestId finished).requests.get? requestId = some
      { recorder.row requestId with
        status :=
          if (recorder.row requestId).isStale then (recorder.row requestId).status else some finished.status
        sampleCount := some finished.sampleCount
        usableSampleCount := some finished.usableSampleCount
        error := finished.error } :=
  Dictionary.get?_insert_self _ _

theorem get?_requestFinished_self {row : RequestRow} (isRow : recorder.requests.get? requestId = some row)
    (finished : FinishedRequest) :
    (recorder.requestFinished requestId finished).requests.get? requestId = some
      { row with
        status := if row.isStale then row.status else some finished.status
        sampleCount := some finished.sampleCount
        usableSampleCount := some finished.usableSampleCount
        error := finished.error } := by
  rw [get?_requestFinished, RunRecorder.row, isRow]
  rfl

theorem get?_markIterationStale {row : RequestRow} (isRow : recorder.requests.get? requestId = some row)
    (iteration : ℤ) (cancellations : List (String × Bool)) :
    (recorder.markIterationStale iteration cancellations).requests.get? requestId = some
      (if row.phase ≠ iteration then row
        else if row.isSettled then row
        else row.markStale (cancellations.lookup requestId)) := by
  rw [markIterationStale, Dictionary.get?_mapValues, isRow]
  rfl

end RunRecorder

end CutPlan.Controller
