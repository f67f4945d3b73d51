import CutPlan.Lib.Machine
import Mathlib.Data.List.Nodup
import Mathlib.Data.List.Perm.Subperm
import Mathlib.Data.Rat.Defs
import Mathlib.Logic.Function.Basic

/-! # Results of a batch

The batch command runs its jobs in a pool of workers.  A worker writes the result of its job to a marker file;
the main thread collects the results and writes `batch_results.csv` when it is done.  A resumed run takes over
the jobs whose markers are valid.
-/

namespace CutPlan.Controller

open CutPlan.Lib

/-! ## Jobs -/

inductive JobMode where
  | off
  | live
  deriving DecidableEq, Repr

inductive JobStatus where
  | planFound
  | unsolvable
  | incomplete
  | timeout
  | failed
  deriving DecidableEq, Repr

structure JobSpec where
  index : ℕ
  jobId : String
  problem : String
  mode : JobMode
  timeLimitSeconds : ℚ
  deriving DecidableEq

structure JobResult where
  index : ℕ
  jobId : String
  problem : String
  mode : JobMode
  timeLimitSeconds : ℚ
  status : JobStatus
  returnCode : ℤ
  elapsedSeconds : ℚ
  outputDir : String
  error : String
  deriving DecidableEq

def expectedPlannerStatuses : ℤ → Option JobStatus
  | 0 => some .planFound
  | 4 => some .unsolvable
  | 5 => some .incomplete
  | 7 => some .timeout
  | _ => none

def resumableStatuses : List JobStatus :=
  [.planFound, .unsolvable, .incomplete, .timeout]

def classifyReturnCode (returnCode : ℤ) (error : String) : JobStatus :=
  if error ≠ "" then .failed else (expectedPlannerStatuses returnCode).getD .failed

/-- How the planner's process ended; the error is empty unless the process could not be run. -/
structure JobOutcome where
  returnCode : ℤ
  elapsedSeconds : ℚ
  error : String

def JobSpec.result (outputDir : String) (job : JobSpec) (outcome : JobOutcome) : JobResult where
  index := job.index
  jobId := job.jobId
  problem := job.problem
  mode := job.mode
  timeLimitSeconds := job.timeLimitSeconds
  status := classifyReturnCode outcome.returnCode outcome.error
  returnCode := outcome.returnCode
  elapsedSeconds := outcome.elapsedSeconds
  outputDir := outputDir ++ "/" ++ job.jobId
  error := outcome.error

/-- The jobs that `load_jobs` accepts: it refuses duplicate ids and resolves the paths of the problems. -/
structure Batch (resolve : String → String) where
  outputDir : String
  jobs : List JobSpec
  parallelism : ℕ
  idsNodup : (jobs.map JobSpec.jobId).Nodup
  resolved : ∀ job ∈ jobs, resolve job.problem = job.problem

/-- What `job_result.json` has for a job id; a file that cannot be read counts as a missing one. -/
abbrev ResultMarkers := String → Option JobResult

/-! ## Resuming -/

section Resuming

variable (resolve : String → String) (markers : ResultMarkers)

def JobSpec.isResumable (job : JobSpec) (stored : JobResult) : Bool :=
  stored.jobId = job.jobId && resolve stored.problem = job.problem && stored.mode = job.mode &&
    stored.timeLimitSeconds = job.timeLimitSeconds && stored.status ∈ resumableStatuses &&
    expectedPlannerStatuses stored.returnCode = some stored.status && stored.error = ""

def partitionResumableJobs : List JobSpec → List JobResult × List JobSpec
  | [] => ([], [])
  | job :: jobs =>
    let rest := partitionResumableJobs jobs
    match (markers job.jobId).filter (job.isResumable resolve) with
    | some stored => (stored :: rest.1, rest.2)
    | none => (rest.1, job :: rest.2)

end Resuming

/-! ## A run -/

/-- Where a worker is with its job. -/
inductive WorkerState where
  | queued
  | running
  | written (result : JobResult)
  | returned (result : JobResult)
  | raised (result? : Option JobResult)
  | cancelled
  deriving DecidableEq

/-- The result that the worker has written to the marker file. -/
def WorkerState.written? : WorkerState → Option JobResult
  | .written result | .returned result => some result
  | .raised result? => result?
  | .queued | .running | .cancelled => none

/-- Where the main thread is: before the pool is started, in the loop over the completed futures, behind it with
all results, in the `finally` block, or at the end. -/
inductive MainPoint where
  | preparing
  | collecting (collected : List JobResult)
  | extended (results : List JobResult)
  | closing (results : List JobResult)
  | ended

/-- The results that will be written. -/
def MainPoint.results? : MainPoint → Option (List JobResult)
  | .extended results | .closing results => some results
  | .preparing | .collecting _ | .ended => none

structure BatchRun where
  completed : List JobResult
  pending : List JobSpec
  markers : ResultMarkers
  table : List JobResult
  workers : String → WorkerState
  main : MainPoint

inductive BatchEvent where
  | serviceReady
  | serviceFails
  | start
  | report (jobId : String) (outcome : JobOutcome)
  | returns (jobId : String)
  | raises (jobId : String)
  | collect (jobId : String)
  | finish
  | leave
  | writeTable
  | interrupt

def sortByIndex (results : List JobResult) : List JobResult :=
  results.mergeSort fun first second => first.index ≤ second.index

namespace BatchRun

/-- The table has the results that are taken over before any job is started. -/
def launch (resolve : String → String) (jobs : List JobSpec) (resume : Bool) (markers : ResultMarkers) : BatchRun :=
  let partition := if resume then partitionResumableJobs resolve markers jobs else ([], jobs)
  { completed := partition.1
    pending := partition.2
    markers
    table := sortByIndex partition.1
    workers := fun _ => .queued
    main := .preparing }

variable (run : BatchRun)

def setWorker (jobId : String) (worker : WorkerState) : BatchRun :=
  { run with workers := Function.update run.workers jobId worker }

/-- The loop is left by an exception: the futures that wait are cancelled, the running ones go on, and the
results that were collected are gone. -/
def shutdown : BatchRun :=
  { run with
    main := .closing run.completed
    workers := fun jobId => if run.workers jobId = .queued then .cancelled else run.workers jobId }

def activeCount : ℕ :=
  run.pending.countP fun job => match run.workers job.jobId with
    | .running | .written _ => true
    | _ => false

/-- A free worker takes the next job of the queue. -/
def startNext (parallelism : ℕ) : BatchRun :=
  match run.main, run.pending.find? fun job => run.workers job.jobId = .queued with
  | .collecting _, some job => if run.activeCount < max 1 parallelism then run.setWorker job.jobId .running else run
  | _, _ => run

def report (outputDir jobId : String) (outcome : JobOutcome) : BatchRun :=
  match run.pending.find? fun job => job.jobId = jobId, run.workers jobId with
  | some job, .running =>
    let result := job.result outputDir outcome
    { run.setWorker jobId (.written result) with markers := Function.update run.markers jobId (some result) }
  | _, _ => run

def returns (jobId : String) : BatchRun :=
  match run.workers jobId with
  | .written result => run.setWorker jobId (.returned result)
  | _ => run

/-- An exception in a worker, before or after its marker is written. -/
def raises (jobId : String) : BatchRun :=
  match run.workers jobId with
  | .running => run.setWorker jobId (.raised none)
  | .written result => run.setWorker jobId (.raised (some result))
  | _ => run

def collect (jobId : String) : BatchRun :=
  match run.main, run.workers jobId with
  | .collecting collected, .returned result =>
    if result.jobId ∈ collected.map JobResult.jobId then run
    else { run with main := .collecting (collected ++ [result]) }
  | .collecting _, .raised _ => run.shutdown
  | _, _ => run

def finish : BatchRun :=
  match run.main with
  | .collecting collected =>
    if collected.length = run.pending.length then
      { run with main := .extended (run.completed ++ sortByIndex collected) }
    else run
  | _ => run

def writeTable : BatchRun :=
  match run.main with
  | .closing results => { run with main := .ended, table := sortByIndex results }
  | _ => run

/-- In the `finally` block nothing catches the exception, and the table is not written any more. -/
def interrupt : BatchRun :=
  match run.main with
  | .preparing => { run with main := .closing run.completed }
  | .collecting _ => run.shutdown
  | .extended results => { run with main := .closing results }
  | .closing _ => { run with main := .ended }
  | .ended => run

def serviceReady : BatchRun :=
  match run.main with
  | .preparing =>
    { run with main := if run.pending = [] then .extended run.completed else .collecting [] }
  | _ => run

def serviceFails : BatchRun :=
  match run.main with
  | .preparing => { run with main := .closing run.completed }
  | _ => run

def leave : BatchRun :=
  match run.main with
  | .extended results => { run with main := .closing results }
  | _ => run

/-- The command has ended when the main thread and all workers have. -/
structure Ended : Prop where
  main : run.main = .ended
  workers : ∀ jobId, run.workers jobId ≠ .running ∧ ∀ result, run.workers jobId ≠ .written result

end BatchRun

namespace Batch

variable {resolve : String → String} (batch : Batch resolve)

def next (run : BatchRun) : BatchEvent → BatchRun
  | .serviceReady => run.serviceReady
  | .serviceFails => run.serviceFails
  | .start => run.startNext batch.parallelism
  | .report jobId outcome => run.report batch.outputDir jobId outcome
  | .returns jobId => run.returns jobId
  | .raises jobId => run.raises jobId
  | .collect jobId => run.collect jobId
  | .finish => run.finish
  | .leave => run.leave
  | .writeTable => run.writeTable
  | .interrupt => run.interrupt

def machine (resume : Bool) (markers : ResultMarkers) : Machine BatchRun BatchEvent where
  start := .launch resolve batch.jobs resume markers
  next := batch.next

end Batch

/-! ## What is to be shown -/

/-- A resumed run has the result in its table all the time, leaves the marker as it is and does not run the job
again. -/
def TakenOver {resolve : String → String} (batch : Batch resolve) (markers : ResultMarkers) (jobId : String)
    (result : JobResult) : Prop :=
  ∀ events, let run := (batch.machine true markers).run events
    result ∈ run.table ∧ run.markers jobId = some result ∧
      (run.workers jobId = .queued ∨ run.workers jobId = .cancelled)

/-- Every result whose marker was written is in the table at the end, and a resumed run takes it over. -/
def NeverLost {resolve : String → String} (batch : Batch resolve) (resume : Bool) (markers : ResultMarkers)
    (events : List BatchEvent) : Prop :=
  let run := (batch.machine resume markers).run events
  run.Ended → ∀ job ∈ batch.jobs, ∀ result, (run.workers job.jobId).written? = some result →
    result ∈ run.table ∧ TakenOver batch run.markers job.jobId result

/-- The main thread is interrupted or a worker raises. -/
def BatchEvent.Disturbs : BatchEvent → Prop
  | .interrupt | .raises _ => True
  | _ => False

/-- After a run without interruptions and exceptions the table has every result that was written.  After any run
a resumed one takes over the jobs with valid markers, those that were written and do not say `failed` among them,
and runs the other jobs. -/
structure ResultsKept {resolve : String → String} (batch : Batch resolve) (resume : Bool) (markers : ResultMarkers)
    (events : List BatchEvent) : Prop where
  table : let run := (batch.machine resume markers).run events
    (∀ event ∈ events, ¬ event.Disturbs) → run.Ended → ∀ job ∈ batch.jobs, ∀ result,
      (run.workers job.jobId).written? = some result → result ∈ run.table
  written : let run := (batch.machine resume markers).run events
    ∀ job ∈ batch.jobs, ∀ result, (run.workers job.jobId).written? = some result →
      run.markers job.jobId = some result
  takenOver : let run := (batch.machine resume markers).run events
    ∀ job ∈ batch.jobs, ∀ result, run.markers job.jobId = some result →
      (job.isResumable resolve result = true → TakenOver batch run.markers job.jobId result) ∧
      (job.isResumable resolve result = false → job ∈ (BatchRun.launch resolve batch.jobs true run.markers).pending)
  valid : let run := (batch.machine resume markers).run events
    ∀ job ∈ batch.jobs, ∀ result, (run.workers job.jobId).written? = some result →
      (job.isResumable resolve result = true ↔ result.status ≠ .failed)
  unwritten : let run := (batch.machine resume markers).run events
    ∀ job ∈ batch.jobs, run.markers job.jobId = none →
      job ∈ (BatchRun.launch resolve batch.jobs true run.markers).pending

/-! ## Steps -/

/-- What an event does. -/
inductive BatchStep (outputDir : String) (run : BatchRun) : BatchEvent → BatchRun → Prop where
  | stays (event : BatchEvent) : BatchStep outputDir run event run
  | nothingPending : run.main = .preparing → run.pending = [] →
    BatchStep outputDir run .serviceReady { run with main := .extended run.completed }
  | submitted : run.main = .preparing →
    BatchStep outputDir run .serviceReady { run with main := .collecting [] }
  | serviceFailed : run.main = .preparing →
    BatchStep outputDir run .serviceFails { run with main := .closing run.completed }
  | started {collected : List JobResult} {job : JobSpec} : run.main = .collecting collected → job ∈ run.pending →
    run.workers job.jobId = .queued → BatchStep outputDir run .start (run.setWorker job.jobId .running)
  | reported {job : JobSpec} (outcome : JobOutcome) : job ∈ run.pending → run.workers job.jobId = .running →
    BatchStep outputDir run (.report job.jobId outcome)
      { run.setWorker job.jobId (.written (job.result outputDir outcome)) with
        markers := Function.update run.markers job.jobId (some (job.result outputDir outcome)) }
  | returned {jobId : String} {result : JobResult} : run.workers jobId = .written result →
    BatchStep outputDir run (.returns jobId) (run.setWorker jobId (.returned result))
  | raised {jobId : String} {worker : WorkerState} : run.workers jobId = worker →
    worker = .running ∨ (∃ result, worker = .written result) →
    BatchStep outputDir run (.raises jobId) (run.setWorker jobId (.raised worker.written?))
  | collected {jobId : String} {collected : List JobResult} {result : JobResult} : run.main = .collecting collected →
    run.workers jobId = .returned result → result.jobId ∉ collected.map JobResult.jobId →
    BatchStep outputDir run (.collect jobId) { run with main := .collecting (collected ++ [result]) }
  | collectedRaised {jobId : String} {collected : List JobResult} {result? : Option JobResult} :
    run.main = .collecting collected → run.workers jobId = .raised result? →
    BatchStep outputDir run (.collect jobId) run.shutdown
  | finished {collected : List JobResult} : run.main = .collecting collected →
    collected.length = run.pending.length →
    BatchStep outputDir run .finish { run with main := .extended (run.completed ++ sortByIndex collected) }
  | left {results : List JobResult} : run.main = .extended results →
    BatchStep outputDir run .leave { run with main := .closing results }
  | tableWritten {results : List JobResult} : run.main = .closing results →
    BatchStep outputDir run .writeTable { run with main := .ended, table := sortByIndex results }
  | interruptedEarly : run.main = .preparing →
    BatchStep outputDir run .interrupt { run with main := .closing run.completed }
  | interrupted {collected : List JobResult} : run.main = .collecting collected →
    BatchStep outputDir run .interrupt run.shutdown
  | interruptedLate {results : List JobResult} : run.main = .extended results →
    BatchStep outputDir run .interrupt { run with main := .closing results }
  | interruptedClosing {results : List JobResult} : run.main = .closing results →
    BatchStep outputDir run .interrupt { run with main := .ended }

theorem Batch.next_step {resolve : String → String} (batch : Batch resolve) (run : BatchRun) (event : BatchEvent) :
    BatchStep batch.outputDir run event (batch.next run event) := by
  cases event with
  | serviceReady =>
    simp only [Batch.next, BatchRun.serviceReady]
    split
    · rename_i isPreparing
      split
      · rename_i nothing
        exact .nothingPending isPreparing nothing
      · exact .submitted isPreparing
    · exact .stays _
  | serviceFails =>
    simp only [Batch.next, BatchRun.serviceFails]
    split
    · rename_i isPreparing
      exact .serviceFailed isPreparing
    · exact .stays _
  | start =>
    simp only [Batch.next, BatchRun.startNext]
    split
    · rename_i collected job isCollecting isFound
      split
      · exact .started isCollecting (List.mem_of_find?_eq_some isFound) (by simpa using List.find?_some isFound)
      · exact .stays _
    · exact .stays _
  | report jobId outcome =>
    simp only [Batch.next, BatchRun.report]
    split
    · rename_i job isFound isRunning
      have isJob : job.jobId = jobId := by simpa using List.find?_some isFound
      subst isJob
      exact .reported outcome (List.mem_of_find?_eq_some isFound) isRunning
    · exact .stays _
  | returns jobId =>
    simp only [Batch.next, BatchRun.returns]
    split
    · rename_i result isWritten
      exact .returned isWritten
    · exact .stays _
  | raises jobId =>
    simp only [Batch.next, BatchRun.raises]
    split
    · rename_i isRunning
      exact .raised isRunning (.inl rfl)
    · rename_i result isWritten
      exact .raised isWritten (.inr ⟨result, rfl⟩)
    · exact .stays _
  | collect jobId =>
    simp only [Batch.next, BatchRun.collect]
    split
    · rename_i collected result isCollecting isReturned
      split
      · exact .stays _
      · rename_i isNew
        exact .collected isCollecting isReturned isNew
    · rename_i collected result? isCollecting isRaised
      exact .collectedRaised isCollecting isRaised
    · exact .stays _
  | finish =>
    simp only [Batch.next, BatchRun.finish]
    split
    · rename_i collected isCollecting
      split
      · rename_i all
        exact .finished isCollecting all
      · exact .stays _
    · exact .stays _
  | leave =>
    simp only [Batch.next, BatchRun.leave]
    split
    · rename_i results isExtended
      exact .left isExtended
    · exact .stays _
  | writeTable =>
    simp only [Batch.next, BatchRun.writeTable]
    split
    · rename_i results isClosing
      exact .tableWritten isClosing
    · exact .stays _
  | interrupt =>
    simp only [Batch.next, BatchRun.interrupt]
    split
    · rename_i isPreparing
      exact .interruptedEarly isPreparing
    · rename_i collected isCollecting
      exact .interrupted isCollecting
    · rename_i results isExtended
      exact .interruptedLate isExtended
    · rename_i results isClosing
      exact .interruptedClosing isClosing
    · exact .stays _

/-! ## Markers -/

theorem mem_sortByIndex {results : List JobResult} {result : JobResult} :
    result ∈ sortByIndex results ↔ result ∈ results :=
  (List.mergeSort_perm _ _).mem_iff

namespace BatchRun

variable {run : BatchRun} {jobId : String} {worker : WorkerState}

@[simp] theorem workers_setWorker_self : (run.setWorker jobId worker).workers jobId = worker :=
  Function.update_self _ _ _

theorem workers_setWorker_of_ne {other : String} (different : other ≠ jobId) :
    (run.setWorker jobId worker).workers other = run.workers other :=
  Function.update_of_ne different _ _

theorem written?_setWorker (same : worker.written? = (run.workers jobId).written?) (other : String) :
    ((run.setWorker jobId worker).workers other).written? = (run.workers other).written? := by
  by_cases isJob : other = jobId
  · rw [isJob, workers_setWorker_self, same]
  · rw [workers_setWorker_of_ne isJob]

theorem written?_shutdown (other : String) :
    (run.shutdown.workers other).written? = (run.workers other).written? := by
  simp only [shutdown]
  split
  · rename_i isQueued
    rw [isQueued]
    rfl
  · rfl

end BatchRun

/-- The marker of a job is the one from before the run, or the one that its worker has written. -/
def MarkerKept (outputDir : String) (start run : BatchRun) (jobId : String) : Prop :=
  (run.workers jobId).written? = none ∧ run.markers jobId = start.markers jobId ∨
    ∃ job ∈ start.pending, job.jobId = jobId ∧ ∃ outcome,
      (run.workers jobId).written? = some (job.result outputDir outcome) ∧
      run.markers jobId = some (job.result outputDir outcome)

/-- What holds in every run, however it is interrupted. -/
structure BatchRun.Kept (outputDir : String) (start run : BatchRun) : Prop where
  completed : run.completed = start.completed
  pending : run.pending = start.pending
  table : ∀ result ∈ start.completed, result ∈ run.table
  results : ∀ results, run.main.results? = some results → ∀ result ∈ start.completed, result ∈ results
  marker : ∀ jobId, MarkerKept outputDir start run jobId
  idle : ∀ jobId, jobId ∉ start.pending.map JobSpec.jobId →
    run.workers jobId = .queued ∨ run.workers jobId = .cancelled

namespace BatchRun.Kept

variable {outputDir : String} {start run run' : BatchRun} {event : BatchEvent}

/-- The main thread takes a step, and the workers and the markers stay as they are. -/
theorem of_main (kept : Kept outputDir start run) {main : MainPoint} {table : List JobResult}
    (keepsTable : ∀ result ∈ start.completed, result ∈ table)
    (keepsResults : ∀ results, main.results? = some results → ∀ result ∈ start.completed, result ∈ results) :
    Kept outputDir start { run with main := main, table := table } where
  completed := kept.completed
  pending := kept.pending
  table := keepsTable
  results := keepsResults
  marker := kept.marker
  idle := kept.idle

/-- A worker takes a step without writing a marker. -/
theorem of_setWorker (kept : Kept outputDir start run) {jobId : String} {worker : WorkerState}
    (same : worker.written? = (run.workers jobId).written?) (isPending : jobId ∈ start.pending.map JobSpec.jobId) :
    Kept outputDir start (run.setWorker jobId worker) where
  completed := kept.completed
  pending := kept.pending
  table := kept.table
  results := kept.results
  marker other := by
    rw [MarkerKept, written?_setWorker same]
    exact kept.marker other
  idle other notPending := by
    have different : other ≠ jobId := by
      rintro rfl
      exact notPending isPending
    rw [workers_setWorker_of_ne different]
    exact kept.idle other notPending

theorem of_shutdown (kept : Kept outputDir start run) : Kept outputDir start run.shutdown where
  completed := kept.completed
  pending := kept.pending
  table := kept.table
  results := by
    rintro _ ⟨⟩ result isResult
    rw [kept.completed]
    exact isResult
  marker other := by
    rw [MarkerKept, written?_shutdown]
    exact kept.marker other
  idle other notPending := by
    simp only [shutdown]
    split
    · exact .inr rfl
    · exact kept.idle other notPending

/-- A worker that is neither waiting nor cancelled has a job of the run. -/
theorem isPending (kept : Kept outputDir start run) {jobId : String} (notQueued : run.workers jobId ≠ .queued)
    (notCancelled : run.workers jobId ≠ .cancelled) : jobId ∈ start.pending.map JobSpec.jobId := by
  by_contra notPending
  obtain isQueued | isCancelled := kept.idle jobId notPending
  · exact notQueued isQueued
  · exact notCancelled isCancelled

/-- A worker writes a marker. -/
theorem of_report (kept : Kept outputDir start run) {job : JobSpec} (isJob : job ∈ start.pending)
    (outcome : JobOutcome) : Kept outputDir start
      { run.setWorker job.jobId (.written (job.result outputDir outcome)) with
        markers := Function.update run.markers job.jobId (some (job.result outputDir outcome)) } where
  completed := kept.completed
  pending := kept.pending
  table := kept.table
  results := kept.results
  marker other := by
    by_cases same : other = job.jobId
    · subst same
      refine .inr ⟨job, isJob, rfl, outcome, ?_, ?_⟩
      · exact congrArg WorkerState.written? workers_setWorker_self
      · exact Function.update_self _ _ _
    · have unchanged := kept.marker other
      rw [MarkerKept] at unchanged ⊢
      dsimp only
      rwa [Function.update_of_ne same, workers_setWorker_of_ne same]
  idle other notPending := by
    have different : other ≠ job.jobId := by
      rintro rfl
      exact notPending (List.mem_map_of_mem isJob)
    exact (workers_setWorker_of_ne different).symm ▸ kept.idle other notPending

theorem step (kept : Kept outputDir start run) (step : BatchStep outputDir run event run') :
    Kept outputDir start run' := by
  have completedKept : ∀ result ∈ start.completed, result ∈ run.completed := by
    rw [kept.completed]
    exact fun _ isResult => isResult
  cases step with
  | stays => exact kept
  | nothingPending isPreparing nothing =>
    refine kept.of_main kept.table ?_
    rintro _ ⟨⟩
    exact completedKept
  | submitted isPreparing => exact kept.of_main kept.table fun _ isResults => nomatch isResults
  | serviceFailed isPreparing =>
    refine kept.of_main kept.table ?_
    rintro _ ⟨⟩
    exact completedKept
  | started isCollecting isJob isQueued =>
    refine kept.of_setWorker (by rw [isQueued]; rfl) ?_
    rw [← kept.pending]
    exact List.mem_map_of_mem isJob
  | reported outcome isJob isRunning => exact kept.of_report (kept.pending ▸ isJob) outcome
  | returned isWritten =>
    exact kept.of_setWorker (by rw [isWritten]; rfl) (kept.isPending (by simp [isWritten]) (by simp [isWritten]))
  | raised isWorker runs =>
    refine kept.of_setWorker (by rw [isWorker]; rfl) ?_
    obtain rfl | ⟨result, rfl⟩ := runs
    · exact kept.isPending (by simp [isWorker]) (by simp [isWorker])
    · exact kept.isPending (by simp [isWorker]) (by simp [isWorker])
  | collected isCollecting isReturned isNew => exact kept.of_main kept.table fun _ isResults => nomatch isResults
  | collectedRaised isCollecting isRaised => exact kept.of_shutdown
  | finished isCollecting all =>
    refine kept.of_main kept.table ?_
    rintro _ ⟨⟩ result isResult
    exact List.mem_append_left _ (completedKept result isResult)
  | left isExtended =>
    refine kept.of_main kept.table ?_
    rintro _ ⟨⟩
    exact kept.results _ (by rw [isExtended]; rfl)
  | @tableWritten results isClosing =>
    refine kept.of_main (fun result isResult => ?_) fun _ isResults => nomatch isResults
    exact mem_sortByIndex.mpr (kept.results results (by rw [isClosing]; rfl) result isResult)
  | interruptedEarly isPreparing =>
    refine kept.of_main kept.table ?_
    rintro _ ⟨⟩
    exact completedKept
  | interrupted isCollecting => exact kept.of_shutdown
  | interruptedLate isExtended =>
    refine kept.of_main kept.table ?_
    rintro _ ⟨⟩
    exact kept.results _ (by rw [isExtended]; rfl)
  | interruptedClosing isClosing => exact kept.of_main kept.table fun _ isResults => nomatch isResults

end BatchRun.Kept

namespace Batch

variable {resolve : String → String} (batch : Batch resolve) (resume : Bool) (markers : ResultMarkers)

theorem run_kept (events : List BatchEvent) :
    BatchRun.Kept batch.outputDir (.launch resolve batch.jobs resume markers)
      ((batch.machine resume markers).run events) := by
  apply (batch.machine resume markers).run_invariant
  · exact {
      completed := rfl
      pending := rfl
      table := fun result isResult => mem_sortByIndex.mpr isResult
      results := fun _ isResults => nomatch isResults
      marker := fun _ => .inl ⟨rfl, rfl⟩
      idle := fun _ _ => .inl rfl }
  · intro run event kept
    exact kept.step (batch.next_step run event)

end Batch

/-! ## Resuming -/

section Resuming

variable {resolve : String → String} {markers : ResultMarkers}

theorem mem_completed_partition {jobs : List JobSpec} {stored : JobResult} :
    stored ∈ (partitionResumableJobs resolve markers jobs).1 ↔
      ∃ job ∈ jobs, markers job.jobId = some stored ∧ job.isResumable resolve stored = true := by
  induction jobs with
  | nil => simp [partitionResumableJobs]
  | cons job jobs inductionHypothesis =>
    rw [partitionResumableJobs]
    cases isStored : (markers job.jobId).filter (job.isResumable resolve) with
    | none =>
      rw [Option.filter_eq_none_iff] at isStored
      simp only [inductionHypothesis, List.mem_cons, exists_eq_or_imp]
      constructor
      · exact .inr
      · rintro (⟨isMarker, isResumable⟩ | later)
        · exact absurd isResumable (isStored stored isMarker)
        · exact later
    | some stored' =>
      rw [Option.filter_eq_some_iff] at isStored
      simp only [inductionHypothesis, List.mem_cons, exists_eq_or_imp, isStored.1]
      constructor
      · rintro (rfl | later)
        · exact .inl ⟨rfl, isStored.2⟩
        · exact .inr later
      · rintro (⟨same, _⟩ | later)
        · exact .inl (Option.some.inj same).symm
        · exact .inr later

theorem mem_pending_partition {jobs : List JobSpec} {job : JobSpec} :
    job ∈ (partitionResumableJobs resolve markers jobs).2 ↔
      job ∈ jobs ∧ ∀ stored, markers job.jobId = some stored → job.isResumable resolve stored = false := by
  induction jobs with
  | nil => simp [partitionResumableJobs]
  | cons first jobs inductionHypothesis =>
    rw [partitionResumableJobs]
    cases isStored : (markers first.jobId).filter (first.isResumable resolve) with
    | none =>
      rw [Option.filter_eq_none_iff] at isStored
      simp only [inductionHypothesis, List.mem_cons]
      constructor
      · rintro (rfl | ⟨isLater, notResumable⟩)
        · exact ⟨.inl rfl, fun stored isMarker => by simpa using isStored stored isMarker⟩
        · exact ⟨.inr isLater, notResumable⟩
      · rintro ⟨isFirst | isLater, notResumable⟩
        · exact .inl isFirst
        · exact .inr ⟨isLater, notResumable⟩
    | some stored =>
      rw [Option.filter_eq_some_iff] at isStored
      simp only [inductionHypothesis, List.mem_cons]
      constructor
      · rintro ⟨isLater, notResumable⟩
        exact ⟨.inr isLater, notResumable⟩
      · rintro ⟨rfl | isLater, notResumable⟩
        · rw [notResumable stored isStored.1] at isStored
          cases isStored.2
        · exact ⟨isLater, notResumable⟩

/-- The marker that a worker writes for a job is taken over unless the job failed. -/
theorem isResumable_result {outputDir : String} {job : JobSpec} (resolved : resolve job.problem = job.problem)
    (outcome : JobOutcome) :
    job.isResumable resolve (job.result outputDir outcome) = true ↔
      (job.result outputDir outcome).status ≠ .failed := by
  have listed : ∀ status : JobStatus, status ∈ resumableStatuses ↔ status ≠ .failed := by
    intro status
    cases status <;> simp [resumableStatuses]
  have checks : job.isResumable resolve (job.result outputDir outcome) = true ↔
      classifyReturnCode outcome.returnCode outcome.error ≠ .failed ∧
        expectedPlannerStatuses outcome.returnCode = some (classifyReturnCode outcome.returnCode outcome.error) ∧
        outcome.error = "" := by
    simp only [JobSpec.isResumable, Bool.and_eq_true, decide_eq_true_eq, listed]
    simp [JobSpec.result, resolved, and_assoc]
  rw [checks]
  change _ ↔ classifyReturnCode outcome.returnCode outcome.error ≠ .failed
  constructor
  · exact And.left
  · intro notFailed
    refine ⟨notFailed, ?_⟩
    by_cases noError : outcome.error = ""
    · refine ⟨?_, noError⟩
      simp only [classifyReturnCode, noError, ne_eq, not_true_eq_false, if_false] at notFailed ⊢
      cases isExpected : expectedPlannerStatuses outcome.returnCode with
      | none =>
        rw [isExpected] at notFailed
        exact absurd rfl notFailed
      | some status => rfl
    · simp [classifyReturnCode, noError] at notFailed

namespace Batch

variable (batch : Batch resolve)

theorem takenOver {job : JobSpec} (isJob : job ∈ batch.jobs) {result : JobResult}
    (isMarker : markers job.jobId = some result) (isResumable : job.isResumable resolve result = true) :
    TakenOver batch markers job.jobId result := by
  intro events
  have kept := batch.run_kept true markers events
  have notPending : job.jobId ∉ (BatchRun.launch resolve batch.jobs true markers).pending.map JobSpec.jobId := by
    intro isPending
    obtain ⟨other, isOther, sameId⟩ := List.mem_map.mp isPending
    obtain ⟨isOther, notResumable⟩ := mem_pending_partition.mp isOther
    have same : other = job := List.inj_on_of_nodup_map batch.idsNodup isOther isJob sameId
    rw [same] at notResumable
    rw [notResumable result isMarker] at isResumable
    cases isResumable
  refine ⟨kept.table result (mem_completed_partition.mpr ⟨job, isJob, isMarker, isResumable⟩), ?_,
    kept.idle job.jobId notPending⟩
  obtain ⟨_, unchanged⟩ | ⟨other, isOther, sameId, _⟩ := kept.marker job.jobId
  · rw [unchanged]
    exact isMarker
  · exact absurd (List.mem_map.mpr ⟨other, isOther, sameId⟩) notPending

theorem launch_pending_subset (resume : Bool) {job : JobSpec}
    (isPending : job ∈ (BatchRun.launch resolve batch.jobs resume markers).pending) : job ∈ batch.jobs := by
  cases resume with
  | false => exact isPending
  | true => exact (mem_pending_partition.mp isPending).1

/-- What a worker has written for a job. -/
theorem written_spec (resume : Bool) (events : List BatchEvent) {job : JobSpec} (isJob : job ∈ batch.jobs)
    {result : JobResult}
    (isWritten : (((batch.machine resume markers).run events).workers job.jobId).written? = some result) :
    ((batch.machine resume markers).run events).markers job.jobId = some result ∧
      ∃ outcome, result = job.result batch.outputDir outcome := by
  obtain ⟨isNone, _⟩ | ⟨other, isOther, sameId, outcome, isResult, isMarker⟩ :=
    (batch.run_kept resume markers events).marker job.jobId
  · rw [isNone] at isWritten
    cases isWritten
  · have same : other = job :=
      List.inj_on_of_nodup_map batch.idsNodup (batch.launch_pending_subset resume isOther) isJob sameId
    rw [isResult, same, Option.some.injEq] at isWritten
    subst isWritten
    exact ⟨same ▸ isMarker, outcome, rfl⟩

end Batch

end Resuming

/-! ## Runs without interruptions -/

namespace BatchRun

/-- No worker is busy, and what the workers have returned is among the results. -/
def Gathered (run : BatchRun) (results : List JobResult) : Prop :=
  ∀ jobId, run.workers jobId = .queued ∨ ∃ result ∈ results, run.workers jobId = .returned result

structure Collecting (run : BatchRun) (collected : List JobResult) : Prop where
  nodup : (collected.map JobResult.jobId).Nodup
  returned : ∀ result ∈ collected, run.workers result.jobId = .returned result
  notCancelled : ∀ jobId, run.workers jobId ≠ .cancelled
  notRaised : ∀ jobId result?, run.workers jobId ≠ .raised result?

/-- What holds if no worker raises and nothing interrupts the main thread. -/
def Orderly (run : BatchRun) : Prop :=
  match run.main with
  | .preparing => ∀ jobId, run.workers jobId = .queued
  | .collecting collected => run.Collecting collected
  | .extended results | .closing results => run.Gathered results
  | .ended => run.Gathered run.table

variable {outputDir : String} {start run run' : BatchRun} {event : BatchEvent}

theorem Gathered.of_queued (queued : ∀ jobId, run.workers jobId = .queued) (results : List JobResult) :
    run.Gathered results :=
  fun jobId => .inl (queued jobId)

/-- Once the results are gathered, workers have nothing to do. -/
theorem Orderly.idle (orderly : run.Orderly) (notCollecting : ∀ collected, run.main ≠ .collecting collected)
    (jobId : String) : run.workers jobId = .queued ∨ ∃ result, run.workers jobId = .returned result := by
  rw [Orderly] at orderly
  cases isMain : run.main with
  | preparing =>
    rw [isMain] at orderly
    exact .inl (orderly jobId)
  | collecting collected => exact absurd isMain (notCollecting collected)
  | extended results =>
    rw [isMain] at orderly
    exact (orderly jobId).imp_right fun ⟨result, _, isReturned⟩ => ⟨result, isReturned⟩
  | closing results =>
    rw [isMain] at orderly
    exact (orderly jobId).imp_right fun ⟨result, _, isReturned⟩ => ⟨result, isReturned⟩
  | ended =>
    rw [isMain] at orderly
    exact (orderly jobId).imp_right fun ⟨result, _, isReturned⟩ => ⟨result, isReturned⟩

/-- A busy worker shows that the main thread collects results. -/
theorem Orderly.isCollecting (orderly : run.Orderly) {jobId : String} {worker : WorkerState}
    (isWorker : run.workers jobId = worker) (notQueued : worker ≠ .queued)
    (notReturned : ∀ result, worker ≠ .returned result) :
    ∃ collected, run.main = .collecting collected ∧ run.Collecting collected := by
  subst isWorker
  by_contra none
  have notCollecting : ∀ collected, run.main ≠ .collecting collected := by
    intro collected isMain
    have collecting := orderly
    rw [Orderly, isMain] at collecting
    exact none ⟨collected, isMain, collecting⟩
  obtain isQueued | ⟨result, isReturned⟩ := orderly.idle notCollecting jobId
  · exact notQueued isQueued
  · exact notReturned result isReturned

theorem Collecting.orderly {collected : List JobResult} (collecting : run.Collecting collected)
    (isCollecting : run.main = .collecting collected) : run.Orderly := by
  rw [Orderly, isCollecting]
  exact collecting

/-- A worker that has not returned goes on. -/
theorem Collecting.setWorker {collected : List JobResult} (collecting : run.Collecting collected) {jobId : String}
    {old worker : WorkerState} (isOld : run.workers jobId = old) (notReturned : ∀ result, old ≠ .returned result)
    (notCancelled : worker ≠ .cancelled) (notRaised : ∀ result?, worker ≠ .raised result?) :
    (run.setWorker jobId worker).Collecting collected where
  nodup := collecting.nodup
  returned result isCollected := by
    have different : result.jobId ≠ jobId := by
      rintro rfl
      exact notReturned result (isOld.symm.trans (collecting.returned result isCollected))
    rw [workers_setWorker_of_ne different]
    exact collecting.returned result isCollected
  notCancelled other := by
    by_cases same : other = jobId
    · rw [same, workers_setWorker_self]
      exact notCancelled
    · rw [workers_setWorker_of_ne same]
      exact collecting.notCancelled other
  notRaised other := by
    by_cases same : other = jobId
    · rw [same, workers_setWorker_self]
      exact notRaised
    · rw [workers_setWorker_of_ne same]
      exact collecting.notRaised other

/-- When as many results are collected as there are jobs, every job has its result among them. -/
theorem Collecting.gathered {collected : List JobResult} (collecting : run.Collecting collected)
    (kept : Kept outputDir start run) (all : collected.length = run.pending.length) (results : List JobResult)
    (contains : ∀ result ∈ collected, result ∈ results) : run.Gathered results := by
  have collectedPending : collected.map JobResult.jobId ⊆ start.pending.map JobSpec.jobId := by
    intro jobId isCollected
    obtain ⟨result, isResult, rfl⟩ := List.mem_map.mp isCollected
    have isReturned := collecting.returned result isResult
    exact kept.isPending (by simp [isReturned]) (by simp [isReturned])
  have everyId : (collected.map JobResult.jobId).Perm (start.pending.map JobSpec.jobId) := by
    apply (collecting.nodup.subperm collectedPending).perm_of_length_le
    rw [List.length_map, List.length_map, all, kept.pending]
  intro jobId
  by_cases isPending : jobId ∈ start.pending.map JobSpec.jobId
  · rw [← everyId.mem_iff] at isPending
    obtain ⟨result, isCollected, rfl⟩ := List.mem_map.mp isPending
    exact .inr ⟨result, contains result isCollected, collecting.returned result isCollected⟩
  · obtain isQueued | isCancelled := kept.idle jobId isPending
    · exact .inl isQueued
    · exact absurd isCancelled (collecting.notCancelled jobId)

theorem Orderly.step (orderly : run.Orderly) (kept : Kept outputDir start run)
    (step : BatchStep outputDir run event run') (undisturbed : ¬ event.Disturbs) : run'.Orderly := by
  cases step with
  | stays => exact orderly
  | nothingPending isPreparing nothing =>
    rw [Orderly, isPreparing] at orderly
    exact Gathered.of_queued orderly _
  | submitted isPreparing =>
    rw [Orderly, isPreparing] at orderly
    exact {
      nodup := List.nodup_nil
      returned := fun _ isCollected => nomatch isCollected
      notCancelled := fun jobId => by simp [orderly jobId]
      notRaised := fun jobId => by simp [orderly jobId] }
  | serviceFailed isPreparing =>
    rw [Orderly, isPreparing] at orderly
    exact Gathered.of_queued orderly _
  | started isCollecting isJob isQueued =>
    rw [Orderly, isCollecting] at orderly
    exact (orderly.setWorker isQueued (by simp) (by simp) (by simp)).orderly isCollecting
  | @reported job outcome isJob isRunning =>
    obtain ⟨collected, isCollecting, collecting⟩ := orderly.isCollecting isRunning (by simp) (by simp)
    have written : (run.setWorker job.jobId (.written (job.result outputDir outcome))).Collecting collected :=
      collecting.setWorker isRunning (by simp) (by simp) (by simp)
    exact Collecting.orderly ⟨written.nodup, written.returned, written.notCancelled, written.notRaised⟩ isCollecting
  | returned isWritten =>
    obtain ⟨collected, isCollecting, collecting⟩ := orderly.isCollecting isWritten (by simp) (by simp)
    exact (collecting.setWorker isWritten (by simp) (by simp) (by simp)).orderly isCollecting
  | raised isWorker runs => exact absurd trivial undisturbed
  | @collected jobId collected result isCollecting isReturned isNew =>
    rw [Orderly, isCollecting] at orderly
    have ownId : result.jobId = jobId := by
      obtain ⟨isNone, _⟩ | ⟨job, _, isJob, outcome, isWritten, _⟩ := kept.marker jobId
      · rw [isReturned] at isNone
        cases isNone
      · rw [isReturned] at isWritten
        cases isWritten
        exact isJob
    exact {
      nodup := by
        rw [List.map_append, List.nodup_append]
        refine ⟨orderly.nodup, List.nodup_singleton _, ?_⟩
        rintro known isKnown _ isLast rfl
        rw [List.map_singleton, List.mem_singleton] at isLast
        exact isNew (isLast ▸ isKnown)
      returned := by
        intro other isOther
        obtain isOther | isLast := List.mem_append.mp isOther
        · exact orderly.returned other isOther
        · rw [List.mem_singleton.mp isLast, ownId]
          exact isReturned
      notCancelled := orderly.notCancelled
      notRaised := orderly.notRaised }
  | collectedRaised isCollecting isRaised =>
    rw [Orderly, isCollecting] at orderly
    exact absurd isRaised (orderly.notRaised _ _)
  | finished isCollecting all =>
    rw [Orderly, isCollecting] at orderly
    apply orderly.gathered kept all
    intro result isCollected
    exact List.mem_append_right _ (mem_sortByIndex.mpr isCollected)
  | left isExtended =>
    rw [Orderly, isExtended] at orderly
    exact orderly
  | tableWritten isClosing =>
    rw [Orderly, isClosing] at orderly
    intro jobId
    obtain isQueued | ⟨result, isResult, isReturned⟩ := orderly jobId
    · exact .inl isQueued
    · exact .inr ⟨result, mem_sortByIndex.mpr isResult, isReturned⟩
  | interruptedEarly => exact absurd trivial undisturbed
  | interrupted => exact absurd trivial undisturbed
  | interruptedLate => exact absurd trivial undisturbed
  | interruptedClosing => exact absurd trivial undisturbed

end BatchRun

theorem Batch.run_orderly {resolve : String → String} (batch : Batch resolve) (resume : Bool)
    (markers : ResultMarkers) {events : List BatchEvent} (undisturbed : ∀ event ∈ events, ¬ event.Disturbs) :
    ((batch.machine resume markers).run events).Orderly := by
  have invariant := (batch.machine resume markers).runFrom_invariant
    (fun run => BatchRun.Kept batch.outputDir (.launch resolve batch.jobs resume markers) run ∧ run.Orderly)
    (fun _ event => ¬ event.Disturbs)
    (fun run event calm both => ⟨both.1.step (batch.next_step run event),
      both.2.step both.1 (batch.next_step run event) calm⟩)
  exact (invariant _ events ⟨batch.run_kept resume markers [], fun _ => rfl⟩
    (Machine.stepsMeet_of_forall_mem _ (fun event isEvent _ => undisturbed event isEvent) _)).2

/-! ## Batches -/

theorem resultsKept {resolve : String → String} (batch : Batch resolve) (resume : Bool) (markers : ResultMarkers)
    (events : List BatchEvent) : ResultsKept batch resume markers events where
  table undisturbed ended job isJob result isWritten := by
    have orderly := batch.run_orderly resume markers undisturbed
    rw [BatchRun.Orderly, ended.main] at orderly
    obtain isQueued | ⟨returned, isResult, isReturned⟩ := orderly job.jobId
    · rw [isQueued] at isWritten
      cases isWritten
    · rw [isReturned] at isWritten
      cases isWritten
      exact isResult
  written job isJob result isWritten := (batch.written_spec resume events isJob isWritten).1
  takenOver job isJob result isMarker := by
    refine ⟨fun isResumable => batch.takenOver isJob isMarker isResumable, fun notResumable => ?_⟩
    refine mem_pending_partition.mpr ⟨isJob, fun stored isStored => ?_⟩
    rw [isMarker] at isStored
    cases isStored
    exact notResumable
  valid job isJob result isWritten := by
    obtain ⟨_, outcome, rfl⟩ := batch.written_spec resume events isJob isWritten
    exact isResumable_result (batch.resolved job isJob) outcome
  unwritten job isJob isMissing := by
    refine mem_pending_partition.mpr ⟨isJob, fun stored isStored => ?_⟩
    rw [isMissing] at isStored
    cases isStored

/-! ## A job that fails -/

def crashingJob : JobSpec := ⟨1, "p", "p.pddl", .off, 60⟩

def crashingBatch : Batch id where
  outputDir := "out"
  jobs := [crashingJob]
  parallelism := 1
  idsNodup := by simp
  resolved := by simp

def crashingRun : List BatchEvent :=
  [.serviceReady, .start, .report "p" ⟨1, 3, ""⟩, .returns "p", .collect "p", .finish, .leave, .writeTable]

/-- A failed job has a marker, and a resumed run repeats it. -/
theorem not_neverLost_crashing : ¬ NeverLost crashingBatch false (fun _ => none) crashingRun := by
  intro neverLost
  have isReturned : ((crashingBatch.machine false fun _ => none).run crashingRun).workers "p" =
      .returned (crashingJob.result "out" ⟨1, 3, ""⟩) := by decide +kernel
  have ended : ((crashingBatch.machine false fun _ => none).run crashingRun).Ended := by
    refine ⟨rfl, fun jobId => ?_⟩
    by_cases isJob : jobId = "p"
    · rw [isJob, isReturned]
      simp
    · obtain isQueued | isCancelled := (crashingBatch.run_kept false (fun _ => none) crashingRun).idle jobId
        (by simpa [BatchRun.launch, crashingBatch, crashingJob] using isJob)
      · simp [isQueued]
      · simp [isCancelled]
  have isWritten := congrArg WorkerState.written? isReturned
  obtain ⟨_, takenOver⟩ := neverLost ended crashingJob List.mem_cons_self _ isWritten
  have inTable := mem_completed_partition.mp (mem_sortByIndex.mp (takenOver []).1)
  obtain ⟨job, isJob, _, isResumable⟩ := inTable
  rw [List.mem_singleton.mp isJob] at isResumable
  exact absurd isResumable (by decide +kernel)

end CutPlan.Controller
