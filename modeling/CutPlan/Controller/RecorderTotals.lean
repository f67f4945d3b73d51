import CutPlan.Controller.RunRecorder
import CutPlan.Lib.RunningTotals
import Mathlib.Algebra.Group.Pi.Basic
import Mathlib.Data.Int.ConditionallyCompleteOrder

/-! # Totals of a run

`AnytimeRunRecorder` collects the events of the planner and of the requests, and derives a row for each
iteration and the totals of the run from them whenever it writes its tables.
-/

namespace CutPlan.Controller

open CutPlan.Lib

/-! ## Columns -/

inductive SearchColumn where
  | expanded
  | evaluated
  | generated
  | reopened
  deriving DecidableEq, Repr

/-- The columns that lines of the planner fill in. -/
inductive PlannerColumn where
  | phase (column : SearchColumn)
  | submitted
  | injectedStates
  deriving DecidableEq, Repr

inductive RequestCount where
  | modelGenerations
  | completedSamples
  | usableSamples
  deriving DecidableEq, Repr

/-- The columns that are added up over the iterations once the requests are counted. -/
inductive LlmColumn where
  | submitted
  | modelGenerations
  | usableSamples
  | injectedStates
  deriving DecidableEq, Repr

/-- The columns of a line or a row, each with the number that `_integer` reads there. -/
abbrev PlannerValues := PlannerColumn → Option ℤ

def RequestRow.count (row : RequestRow) : RequestCount → ℕ
  | .modelGenerations => row.modelGenerationsStarted.getD 0
  | .completedSamples => row.sampleCount.getD 0
  | .usableSamples => row.usableSampleCount.getD 0

def RunRecorder.PhaseCounts.count (counts : RunRecorder.PhaseCounts) : RequestCount → ℕ
  | .modelGenerations => counts.modelGenerations
  | .completedSamples => counts.completedSamples
  | .usableSamples => counts.usableSamples

def RunRecorder.Snapshot.count (snapshot : RunRecorder.Snapshot) : RequestCount → ℕ
  | .modelGenerations => snapshot.modelGenerationCount
  | .completedSamples => snapshot.completedSampleCount
  | .usableSamples => snapshot.usableSampleCount

/-! ## Rows of iterations -/

/-- A row of `phases.csv`.  Only the tables have totals; the rows that are collected have not. -/
structure PhaseRow where
  values : PlannerValues
  counts : RunRecorder.PhaseCounts
  searchTotals : Option (SearchColumn → ℤ)
  llmTotals : LlmColumn → ℤ

namespace PhaseRow

def empty : PhaseRow := ⟨fun _ => none, .zero, none, 0⟩

def integer (row : PhaseRow) (column : PlannerColumn) : ℤ :=
  (row.values column).getD 0

/-- The columns of the line replace those of the row. -/
def update (line : PlannerValues) (row : PhaseRow) : PhaseRow :=
  { row with values := fun column => (line column).or (row.values column) }

def search (row : PhaseRow) (column : SearchColumn) : ℤ :=
  row.integer (.phase column)

def llm (row : PhaseRow) : LlmColumn → ℤ
  | .submitted => row.integer .submitted
  | .modelGenerations => row.counts.modelGenerations
  | .usableSamples => row.counts.usableSamples
  | .injectedStates => row.integer .injectedStates

def addRequest (request : RequestRow) (row : PhaseRow) : PhaseRow :=
  { row with
    counts :=
      { modelGenerations := row.counts.modelGenerations + request.modelGenerationsStarted.getD 0
        completedSamples := row.counts.completedSamples + request.sampleCount.getD 0
        usableSamples := row.counts.usableSamples + request.usableSampleCount.getD 0
        staleRequests := row.counts.staleRequests + if request.isStale then 1 else 0 } }

end PhaseRow

/-! ## The recorder -/

inductive AnytimeEvent where
  | requestReceived (requestId : String) (iteration : ℤ)
  | modelStarted (requestId : String) (generationCount : ℕ)
  | requestFinished (requestId : String) (finished : FinishedRequest)
  | phaseStart (iteration : ℤ) (values : PlannerValues)
  | phaseEnd (iteration : ℤ) (values : PlannerValues) (cancellations : List (String × Bool))
  | triggerStats (iteration : ℤ) (values : PlannerValues)
  | incumbent (iteration : ℤ)
  | inject (requestId : String)
  | bridgeTransport (requestId : String) (error : Option String)
  | bridgePhaseEnd (requestId : String)
  | plannerStopped (iteration : ℤ) (cancellations : List (String × Bool))

structure AnytimeRunRecorder where
  requests : RunRecorder
  phases : Dictionary ℤ PhaseRow
  incumbents : List ℤ

namespace RunRecorder

variable (recorder : RunRecorder) (requestId : String)

/-- A line on an unknown request starts a row for it. -/
def injected : RunRecorder :=
  ⟨recorder.requests.insert requestId (recorder.row requestId)⟩

def bridgeTransport (error : Option String) : RunRecorder :=
  let row := recorder.row requestId
  ⟨recorder.requests.insert requestId { row with error := error.getD row.error }⟩

def bridgePhaseEnd : RunRecorder :=
  let row := recorder.row requestId
  ⟨recorder.requests.insert requestId
    { row with status := if row.status = some .staleIteration then row.status else some .discardedPhaseEnd }⟩

end RunRecorder

namespace AnytimeRunRecorder

def start : AnytimeRunRecorder := ⟨.start, .empty, []⟩

variable (recorder : AnytimeRunRecorder)

def phase (iteration : ℤ) : PhaseRow :=
  (recorder.phases.get? iteration).getD .empty

def updatePhase (iteration : ℤ) (values : PlannerValues) : AnytimeRunRecorder :=
  { recorder with phases := recorder.phases.insert iteration ((recorder.phase iteration).update values) }

def next : AnytimeEvent → AnytimeRunRecorder
  | .requestReceived requestId iteration =>
    { recorder with requests := recorder.requests.requestReceived requestId iteration }
  | .modelStarted requestId generationCount =>
    { recorder with requests := recorder.requests.modelStarted requestId generationCount }
  | .requestFinished requestId finished =>
    { recorder with requests := recorder.requests.requestFinished requestId finished }
  | .phaseStart iteration values => recorder.updatePhase iteration values
  | .phaseEnd iteration values cancellations =>
    { recorder.updatePhase iteration values with
      requests := recorder.requests.markIterationStale iteration cancellations }
  | .triggerStats iteration values => recorder.updatePhase iteration values
  | .incumbent iteration => { recorder with incumbents := recorder.incumbents ++ [iteration] }
  | .inject requestId => { recorder with requests := recorder.requests.injected requestId }
  | .bridgeTransport requestId error => { recorder with requests := recorder.requests.bridgeTransport requestId error }
  | .bridgePhaseEnd requestId => { recorder with requests := recorder.requests.bridgePhaseEnd requestId }
  | .plannerStopped iteration cancellations =>
    { recorder with
      phases := recorder.phases.insert iteration (recorder.phase iteration)
      requests := recorder.requests.markIterationStale iteration cancellations }

end AnytimeRunRecorder

def anytimeRunRecorder : Machine AnytimeRunRecorder AnytimeEvent where
  start := .start
  next := AnytimeRunRecorder.next

/-! ## Tables -/

/-- The columns of `incumbents.csv` that come from the row of the iteration. -/
structure IncumbentRow where
  iteration : ℤ
  phaseColumns : LlmColumn → ℤ
  cumulativeColumns : LlmColumn → ℤ

structure AnytimeSnapshot where
  phases : Dictionary ℤ PhaseRow
  requests : RunRecorder.Snapshot
  incumbents : List IncumbentRow

namespace AnytimeRunRecorder

variable (recorder : AnytimeRunRecorder)

def searchedPhases : Dictionary ℤ PhaseRow :=
  (recorder.phases.accumulate PhaseRow.search fun sums row => { row with searchTotals := some sums }).mapValues
    fun _ row => { row with counts := .zero }

/-- A request for an unknown iteration starts a row for it. -/
def countedPhases : Dictionary ℤ PhaseRow :=
  recorder.searchedPhases.adjustAll (fun entry => entry.2.phase) (fun _ => .empty)
    (fun entry => PhaseRow.addRequest entry.2) recorder.requests.requests.entries

def snapshotPhases : Dictionary ℤ PhaseRow :=
  recorder.countedPhases.accumulate PhaseRow.llm fun sums row => { row with llmTotals := sums }

def snapshot : AnytimeSnapshot where
  phases := recorder.snapshotPhases
  requests := recorder.requests.snapshot
  incumbents := recorder.incumbents.map fun iteration =>
    let row := recorder.snapshotPhases.get? iteration
    { iteration := iteration
      phaseColumns := row.elim 0 PhaseRow.llm
      cumulativeColumns := row.elim 0 PhaseRow.llmTotals }

end AnytimeRunRecorder

/-! ## What is to be shown -/

/-- The totals of a snapshot are the sums over its rows, and its rows count every request once. -/
structure AnytimeSnapshot.Consistent (snapshot : AnytimeSnapshot) : Prop where
  runTotals : ∀ count,
    snapshot.requests.count count = snapshot.phases.total fun _ row => row.counts.count count
  requestsOnce : (snapshot.requests.requests.map Prod.fst).Nodup
  rowOfRequest : ∀ requestId request, (requestId, request) ∈ snapshot.requests.requests →
    (snapshot.phases.get? request.phase).isSome
  ownRequests : ∀ iteration row, snapshot.phases.get? iteration = some row → ∀ count,
    row.counts.count count =
      ((snapshot.requests.requests.filter (·.2.phase = iteration)).map (·.2.count count)).sum
  llmTotals : ∀ iteration row, snapshot.phases.get? iteration = some row → ∀ column,
    row.llmTotals column = snapshot.phases.totalUpTo (·.llm column) iteration
  searchTotals : ∀ iteration row totals, snapshot.phases.get? iteration = some row →
    row.searchTotals = some totals → ∀ column,
    totals column = snapshot.phases.totalUpTo (·.search column) iteration
  incumbents : ∀ incumbent ∈ snapshot.incumbents, ∀ row, snapshot.phases.get? incumbent.iteration = some row →
    incumbent.phaseColumns = row.llm ∧ incumbent.cumulativeColumns = row.llmTotals

/-- No total of the run, and no count or cumulative column of a row, is smaller in the later snapshot. -/
structure AnytimeSnapshot.NotAbove (snapshot later : AnytimeSnapshot) : Prop where
  runTotals : ∀ count, snapshot.requests.count count ≤ later.requests.count count
  counts : ∀ iteration row row', snapshot.phases.get? iteration = some row →
    later.phases.get? iteration = some row' → ∀ count, row.counts.count count ≤ row'.counts.count count
  llmTotals : ∀ iteration row row', snapshot.phases.get? iteration = some row →
    later.phases.get? iteration = some row' → row.llmTotals ≤ row'.llmTotals
  searchTotals : ∀ iteration row row' totals totals', snapshot.phases.get? iteration = some row →
    later.phases.get? iteration = some row' → row.searchTotals = some totals →
    row'.searchTotals = some totals' → totals ≤ totals'

/-- The event replaces no number by a smaller one, and moves no request that counts to another iteration. -/
def AnytimeRunRecorder.LowersNothing (recorder : AnytimeRunRecorder) : AnytimeEvent → Prop
  | .requestReceived requestId iteration =>
    (recorder.requests.row requestId).phase = iteration ∨ (recorder.requests.row requestId).count = 0
  | .modelStarted requestId generationCount =>
    (recorder.requests.row requestId).count .modelGenerations ≤ generationCount
  | .requestFinished requestId finished =>
    (recorder.requests.row requestId).count .completedSamples ≤ finished.sampleCount ∧
      (recorder.requests.row requestId).count .usableSamples ≤ finished.usableSampleCount
  | .phaseStart iteration values | .phaseEnd iteration values _ | .triggerStats iteration values =>
    (recorder.phase iteration).integer ≤ ((recorder.phase iteration).update values).integer
  | _ => True

namespace RequestRow

@[simp] theorem count_empty : empty.count = 0 := by
  funext count
  cases count <;> rfl

end RequestRow

@[simp] theorem RunRecorder.PhaseCounts.count_zero (count : RequestCount) : PhaseCounts.zero.count count = 0 := by
  cases count <;> rfl

namespace PhaseRow

variable {row : PhaseRow} {request : RequestRow}

@[simp] theorem count_addRequest (count : RequestCount) :
    (row.addRequest request).counts.count count = row.counts.count count + request.count count := by
  cases count <;> rfl

/-- What the counts of a request add to a column. -/
def llmOfCounts (counts : RequestCount → ℕ) : LlmColumn → ℤ
  | .modelGenerations => counts .modelGenerations
  | .usableSamples => counts .usableSamples
  | .submitted | .injectedStates => 0

/-- What the planner's numbers contribute to a column. -/
def llmOfPlanner (numbers : PlannerColumn → ℤ) : LlmColumn → ℤ
  | .submitted => numbers .submitted
  | .injectedStates => numbers .injectedStates
  | .modelGenerations | .usableSamples => 0

theorem llmOfCounts_mono (column : LlmColumn) : Monotone fun counts => llmOfCounts counts column := by
  intro counts counts' atMost
  cases column with
  | submitted => exact le_rfl
  | modelGenerations => exact Int.ofNat_le.mpr (atMost _)
  | usableSamples => exact Int.ofNat_le.mpr (atMost _)
  | injectedStates => exact le_rfl

theorem llmOfPlanner_mono (column : LlmColumn) : Monotone fun numbers => llmOfPlanner numbers column := by
  intro numbers numbers' atMost
  cases column with
  | submitted => exact atMost _
  | modelGenerations => exact le_rfl
  | usableSamples => exact le_rfl
  | injectedStates => exact atMost _

theorem llm_of_noCounts (column : LlmColumn) :
    ({ row with counts := .zero } : PhaseRow).llm column = llmOfPlanner row.integer column := by
  cases column <;> rfl

theorem llm_addRequest (column : LlmColumn) :
    (row.addRequest request).llm column = row.llm column + llmOfCounts request.count column := by
  cases column with
  | submitted => exact (add_zero _).symm
  | modelGenerations => exact Int.natCast_add _ _
  | usableSamples => exact Int.natCast_add _ _
  | injectedStates => exact (add_zero _).symm

theorem llm_empty (column : LlmColumn) : empty.llm column = 0 := by
  cases column <;> rfl

end PhaseRow

/-! ## One snapshot -/

namespace AnytimeRunRecorder

variable {recorder : AnytimeRunRecorder}

theorem snapshot_count (count : RequestCount) : recorder.snapshot.requests.count count =
    recorder.requests.requests.total fun _ request => request.count count := by
  have counted : ∀ (entries : List (String × RequestRow)) (snapshot : RunRecorder.Snapshot),
      (entries.foldl RunRecorder.Snapshot.addRow snapshot).count count =
        snapshot.count count + (entries.map fun entry => entry.2.count count).sum := by
    intro entries
    induction entries with
    | nil => simp
    | cons entry entries inductionHypothesis =>
      intro snapshot
      have added : (snapshot.addRow entry).count count = snapshot.count count + entry.2.count count := by
        cases count <;> rfl
      rw [List.foldl_cons, inductionHypothesis, added, List.map_cons, List.sum_cons, add_assoc]
  refine (counted _ .empty).trans ?_
  cases count <;> exact Nat.zero_add _

/-- A total over the rows in which the requests are counted. -/
theorem total_countedPhases {M : Type*} [AddCancelCommMonoid M] {amount : ℤ → PhaseRow → M}
    (added : RequestRow → M) (nothing : ∀ iteration, amount iteration .empty = 0)
    (adds : ∀ request row, amount request.phase (PhaseRow.addRequest request row) =
      amount request.phase row + added request) :
    recorder.countedPhases.total amount =
      recorder.searchedPhases.total amount + recorder.requests.requests.total fun _ request => added request :=
  Dictionary.total_adjustAll (fun _ => nothing _) (fun entry row => adds entry.2 row) _

theorem total_snapshotPhases {M : Type*} [AddCommMonoid M] {amount : ℤ → PhaseRow → M}
    (ignores : ∀ iteration row sums, amount iteration { row with llmTotals := sums } = amount iteration row) :
    recorder.snapshotPhases.total amount = recorder.countedPhases.total amount := by
  rw [snapshotPhases, Dictionary.accumulate_eq, Dictionary.total_mapValues]
  simp only [ignores]

theorem total_searchedPhases {M : Type*} [AddCommMonoid M] {amount : ℤ → PhaseRow → M}
    (ignores : ∀ iteration row totals, amount iteration { row with searchTotals := totals } = amount iteration row) :
    recorder.searchedPhases.total amount =
      recorder.phases.total fun iteration row => amount iteration { row with counts := .zero } := by
  rw [searchedPhases, Dictionary.accumulate_eq, Dictionary.total_mapValues, Dictionary.total_mapValues]
  apply Dictionary.total_congr
  intro iteration row _
  exact ignores iteration { row with counts := .zero } _

theorem get?_snapshotPhases (iteration : ℤ) : recorder.snapshotPhases.get? iteration =
    (recorder.countedPhases.get? iteration).map fun row =>
      { row with llmTotals := recorder.countedPhases.totalUpTo PhaseRow.llm iteration } := by
  rw [snapshotPhases, Dictionary.accumulate_eq, Dictionary.get?_mapValues]

theorem get?_searchedPhases (iteration : ℤ) : recorder.searchedPhases.get? iteration =
    (recorder.phases.get? iteration).map fun row =>
      { row with
        counts := .zero
        searchTotals := some (recorder.phases.totalUpTo PhaseRow.search iteration) } := by
  rw [searchedPhases, Dictionary.get?_mapValues, Dictionary.accumulate_eq, Dictionary.get?_mapValues,
    Option.map_map]
  rfl

theorem totalUpTo_apply {Column M : Type*} [AddCommMonoid M] (amount : PhaseRow → Column → M)
    (phases : Dictionary ℤ PhaseRow) (iteration : ℤ) (column : Column) :
    phases.totalUpTo amount iteration column = phases.totalUpTo (fun row => amount row column) iteration := by
  simp only [Dictionary.totalUpTo]
  generalize phases.entries.filter (fun entry => entry.1 ≤ iteration) = entries
  induction entries with
  | nil => rfl
  | cons entry entries inductionHypothesis => simp [inductionHypothesis]

variable (recorder) in
/-- The counts of a row are those of the requests of its iteration. -/
theorem count_snapshotPhases (iteration : ℤ) (count : RequestCount) :
    (recorder.snapshotPhases.get? iteration).elim 0 (fun row => row.counts.count count) =
      recorder.requests.requests.total fun _ request =>
        if request.phase = iteration then request.count count else 0 := by
  rw [← Dictionary.total_single, total_snapshotPhases (fun _ _ _ => rfl),
    total_countedPhases (fun request => if request.phase = iteration then request.count count else 0),
    total_searchedPhases (fun _ _ _ => rfl)]
  · simp [Dictionary.total]
  · intro key
    simp [PhaseRow.empty]
  · intro request row
    by_cases own : request.phase = iteration
    · simp [own]
    · simp [own]

/-- The columns that are added up, as totals over what the recorder has collected. -/
theorem llmUpTo_snapshotPhases (iteration : ℤ) (column : LlmColumn) :
    recorder.snapshotPhases.totalUpTo (·.llm column) iteration =
      (recorder.phases.total fun key row =>
        if key ≤ iteration then PhaseRow.llmOfPlanner row.integer column else 0) +
      recorder.requests.requests.total fun _ request =>
        if request.phase ≤ iteration then PhaseRow.llmOfCounts request.count column else 0 := by
  rw [Dictionary.totalUpTo_eq_total, total_snapshotPhases,
    total_countedPhases fun request =>
      if request.phase ≤ iteration then PhaseRow.llmOfCounts request.count column else 0,
    total_searchedPhases]
  · simp only [PhaseRow.llm_of_noCounts]
  · intro key row totals
    cases column <;> rfl
  · intro key
    simp [PhaseRow.llm_empty]
  · intro request row
    by_cases upTo : request.phase ≤ iteration
    · simp [upTo, PhaseRow.llm_addRequest]
    · simp [upTo]
  · intro key row sums
    cases column <;> rfl

theorem searchUpTo_snapshotPhases (iteration : ℤ) (column : SearchColumn) :
    recorder.snapshotPhases.totalUpTo (·.search column) iteration =
      recorder.phases.totalUpTo (·.search column) iteration := by
  rw [Dictionary.totalUpTo_eq_total, total_snapshotPhases (fun _ _ _ => rfl),
    total_countedPhases (fun _ => 0), total_searchedPhases (fun _ _ _ => rfl),
    Dictionary.totalUpTo_eq_total]
  · simp [Dictionary.total, PhaseRow.search, PhaseRow.integer]
  · intro key
    simp [PhaseRow.search, PhaseRow.integer, PhaseRow.empty]
  · intro request row
    rw [add_zero]
    rfl

variable (recorder) in
/-- Rows keep the totals of the search that they have before the requests are counted. -/
theorem searchTotals_snapshotPhases (iteration : ℤ) :
    (recorder.snapshotPhases.get? iteration).elim none PhaseRow.searchTotals =
      (recorder.phases.get? iteration).map fun _ => recorder.phases.totalUpTo PhaseRow.search iteration := by
  have kept : (recorder.snapshotPhases.get? iteration).elim none PhaseRow.searchTotals =
      (recorder.countedPhases.get? iteration).elim none PhaseRow.searchTotals := by
    rw [get?_snapshotPhases]
    cases recorder.countedPhases.get? iteration <;> rfl
  have searched : (recorder.countedPhases.get? iteration).elim none PhaseRow.searchTotals =
      (recorder.searchedPhases.get? iteration).elim none PhaseRow.searchTotals := by
    rw [countedPhases]
    apply Dictionary.elim_get?_adjustAll
    · intro entry
      rfl
    · intro entry row
      rfl
  rw [kept, searched, get?_searchedPhases]
  cases recorder.phases.get? iteration <;> rfl

theorem isSome_snapshotPhases (iteration : ℤ) : (recorder.snapshotPhases.get? iteration).isSome ↔
    (recorder.phases.get? iteration).isSome ∨
      ∃ entry ∈ recorder.requests.requests.entries, entry.2.phase = iteration := by
  rw [get?_snapshotPhases, Option.isSome_map, countedPhases, Dictionary.isSome_get?_adjustAll, get?_searchedPhases,
    Option.isSome_map]

theorem snapshot_consistent (recorder : AnytimeRunRecorder) : recorder.snapshot.Consistent where
  runTotals count := by
    rw [snapshot_count]
    refine ((total_snapshotPhases fun _ _ _ => rfl).trans ?_).symm
    rw [total_countedPhases (fun request => request.count count), total_searchedPhases (fun _ _ _ => rfl)]
    · simp [Dictionary.total]
    · intro iteration
      simp [PhaseRow.empty]
    · intro request row
      exact PhaseRow.count_addRequest count
  requestsOnce := by
    change (recorder.requests.snapshot.requests.map Prod.fst).Nodup
    rw [RunRecorder.snapshot_requests]
    exact recorder.requests.requests.keysNodup
  rowOfRequest requestId request isRequest := by
    change (_, _) ∈ recorder.requests.snapshot.requests at isRequest
    rw [RunRecorder.snapshot_requests] at isRequest
    exact (isSome_snapshotPhases _).mpr (.inr ⟨_, isRequest, rfl⟩)
  ownRequests iteration row isRow count := by
    have counted := count_snapshotPhases recorder iteration count
    change recorder.snapshotPhases.get? iteration = some row at isRow
    rw [isRow, Option.elim_some] at counted
    change row.counts.count count = ((recorder.requests.snapshot.requests.filter _).map _).sum
    rw [RunRecorder.snapshot_requests, counted, Dictionary.total, List.sum_map_ite]
    simp
  llmTotals iteration row isRow column := by
    change recorder.snapshotPhases.get? iteration = some row at isRow
    rw [get?_snapshotPhases, Option.map_eq_some_iff] at isRow
    obtain ⟨counted, _, rfl⟩ := isRow
    change recorder.countedPhases.totalUpTo PhaseRow.llm iteration column =
      recorder.snapshotPhases.totalUpTo (·.llm column) iteration
    rw [totalUpTo_apply, Dictionary.totalUpTo_eq_total, Dictionary.totalUpTo_eq_total, total_snapshotPhases]
    intro key row sums
    cases column <;> rfl
  searchTotals iteration row totals isRow isTotals column := by
    change recorder.snapshotPhases.get? iteration = some row at isRow
    have recorded := searchTotals_snapshotPhases recorder iteration
    rw [isRow, Option.elim_some, isTotals, eq_comm, Option.map_eq_some_iff] at recorded
    obtain ⟨_, _, rfl⟩ := recorded
    rw [totalUpTo_apply]
    exact (searchUpTo_snapshotPhases iteration column).symm
  incumbents incumbent isIncumbent row isRow := by
    obtain ⟨iteration, _, rfl⟩ := List.mem_map.mp isIncumbent
    change recorder.snapshotPhases.get? iteration = some row at isRow
    simp [isRow]

/-! ## Totals along a run -/

section Totals

variable {M : Type*} [AddCommMonoid M] [PartialOrder M] [IsOrderedCancelAddMonoid M] {requestId : String}

/-- A measure of the counts of the requests of some iterations. -/
def requestTotal (recorder : RunRecorder) (measure : (RequestCount → ℕ) → M) (counted : ℤ → Prop)
    [DecidablePred counted] : M :=
  recorder.requests.total fun _ request => if counted request.phase then measure request.count else 0

/-- A measure of the planner's numbers for the iterations up to one. -/
def plannerTotal (recorder : AnytimeRunRecorder) (measure : (PlannerColumn → ℤ) → M) (iteration : ℤ) : M :=
  recorder.phases.total fun key row => if key ≤ iteration then measure row.integer else 0

theorem requestTotal_le_insert {recorder : RunRecorder} {measure : (RequestCount → ℕ) → M}
    (measures : Monotone measure) (ofNothing : measure 0 = 0) (counted : ℤ → Prop) [DecidablePred counted] {row : RequestRow}
    (larger : (recorder.row requestId).count ≤ row.count)
    (stays : (recorder.row requestId).phase = row.phase ∨ (recorder.row requestId).count = 0) :
    requestTotal recorder measure counted ≤
      requestTotal ⟨recorder.requests.insert requestId row⟩ measure counted := by
  have nonneg : ∀ counts, 0 ≤ measure counts := fun counts => ofNothing ▸ measures fun _ => Nat.zero_le _
  have ownAmount : 0 ≤ if counted row.phase then measure row.count else 0 := by
    split
    · exact nonneg _
    · exact le_rfl
  apply Dictionary.total_le_insert
  rw [RunRecorder.row] at larger stays
  cases isOld : recorder.requests.get? requestId with
  | none => exact ownAmount
  | some old =>
    rw [isOld, Option.getD_some] at larger stays
    rw [Option.elim_some]
    obtain same | noCounts := stays
    · rw [same]
      split
      · exact measures larger
      · exact le_rfl
    · rw [noCounts, ofNothing, ite_self]
      exact ownAmount

omit [PartialOrder M] [IsOrderedCancelAddMonoid M] in
theorem requestTotal_markIterationStale (recorder : RunRecorder) (measure : (RequestCount → ℕ) → M)
    (counted : ℤ → Prop) [DecidablePred counted] (iteration : ℤ) (cancellations : List (String × Bool)) :
    requestTotal (recorder.markIterationStale iteration cancellations) measure counted =
      requestTotal recorder measure counted := by
  rw [requestTotal, RunRecorder.markIterationStale, Dictionary.total_mapValues]
  apply Dictionary.total_congr
  intro requestId row _
  split
  · rfl
  · split
    · rfl
    · rfl

theorem requestTotal_le_next {measure : (RequestCount → ℕ) → M} (measures : Monotone measure)
    (ofNothing : measure 0 = 0) (counted : ℤ → Prop) [DecidablePred counted] {event : AnytimeEvent}
    (lowersNothing : recorder.LowersNothing event) :
    requestTotal recorder.requests measure counted ≤ requestTotal (recorder.next event).requests measure counted := by
  cases event with
  | requestReceived requestId iteration =>
    exact requestTotal_le_insert measures ofNothing counted le_rfl lowersNothing
  | modelStarted requestId generationCount =>
    refine requestTotal_le_insert measures ofNothing counted (fun count => ?_) (.inl rfl)
    cases count with
    | modelGenerations => exact lowersNothing
    | completedSamples => exact le_rfl
    | usableSamples => exact le_rfl
  | requestFinished requestId finished =>
    refine requestTotal_le_insert measures ofNothing counted (fun count => ?_) (.inl rfl)
    cases count with
    | modelGenerations => exact le_rfl
    | completedSamples => exact lowersNothing.1
    | usableSamples => exact lowersNothing.2
  | phaseStart iteration values => exact le_rfl
  | phaseEnd iteration values cancellations => exact (requestTotal_markIterationStale _ _ _ _ _).ge
  | triggerStats iteration values => exact le_rfl
  | incumbent iteration => exact le_rfl
  | inject requestId => exact requestTotal_le_insert measures ofNothing counted le_rfl (.inl rfl)
  | bridgeTransport requestId error => exact requestTotal_le_insert measures ofNothing counted le_rfl (.inl rfl)
  | bridgePhaseEnd requestId => exact requestTotal_le_insert measures ofNothing counted le_rfl (.inl rfl)
  | plannerStopped iteration cancellations => exact (requestTotal_markIterationStale _ _ _ _ _).ge

theorem plannerTotal_le_insert {measure : (PlannerColumn → ℤ) → M} (measures : Monotone measure)
    (ofNothing : measure 0 = 0) (upTo : ℤ) {iteration : ℤ} {row : PhaseRow}
    (larger : (recorder.phase iteration).integer ≤ row.integer) :
    recorder.plannerTotal measure upTo ≤
      plannerTotal { recorder with phases := recorder.phases.insert iteration row } measure upTo := by
  apply Dictionary.total_le_insert
  have isMeasure : ((recorder.phases.get? iteration).elim 0 fun row =>
        if iteration ≤ upTo then measure row.integer else 0) =
      if iteration ≤ upTo then measure (recorder.phase iteration).integer else 0 := by
    rw [phase]
    cases recorder.phases.get? iteration with
    | none => exact ((if_congr Iff.rfl ofNothing rfl).trans (ite_self 0)).symm
    | some row => rfl
  rw [isMeasure]
  split
  · exact measures larger
  · exact le_rfl

theorem plannerTotal_le_next {measure : (PlannerColumn → ℤ) → M} (measures : Monotone measure)
    (ofNothing : measure 0 = 0) (upTo : ℤ) {event : AnytimeEvent} (lowersNothing : recorder.LowersNothing event) :
    recorder.plannerTotal measure upTo ≤ (recorder.next event).plannerTotal measure upTo := by
  cases event with
  | phaseStart iteration values => exact plannerTotal_le_insert measures ofNothing upTo lowersNothing
  | phaseEnd iteration values cancellations => exact plannerTotal_le_insert measures ofNothing upTo lowersNothing
  | triggerStats iteration values => exact plannerTotal_le_insert measures ofNothing upTo lowersNothing
  | plannerStopped iteration cancellations => exact plannerTotal_le_insert measures ofNothing upTo le_rfl
  | requestReceived | modelStarted | requestFinished | incumbent | inject | bridgeTransport | bridgePhaseEnd =>
    exact le_rfl

variable {events : List AnytimeEvent}

theorem requestTotal_le_runFrom {measure : (RequestCount → ℕ) → M} (measures : Monotone measure)
    (ofNothing : measure 0 = 0) (counted : ℤ → Prop) [DecidablePred counted]
    (lowersNothing : anytimeRunRecorder.StepsMeet LowersNothing recorder events) :
    requestTotal recorder.requests measure counted ≤
      requestTotal (anytimeRunRecorder.runFrom recorder events).requests measure counted :=
  anytimeRunRecorder.runFrom_invariant
    (fun later => requestTotal recorder.requests measure counted ≤ requestTotal later.requests measure counted)
    LowersNothing (fun _ _ lowers atMost => atMost.trans (requestTotal_le_next measures ofNothing counted lowers))
    recorder events le_rfl lowersNothing

theorem plannerTotal_le_runFrom {measure : (PlannerColumn → ℤ) → M} (measures : Monotone measure)
    (ofNothing : measure 0 = 0) (upTo : ℤ)
    (lowersNothing : anytimeRunRecorder.StepsMeet LowersNothing recorder events) :
    recorder.plannerTotal measure upTo ≤ (anytimeRunRecorder.runFrom recorder events).plannerTotal measure upTo :=
  anytimeRunRecorder.runFrom_invariant
    (fun later => recorder.plannerTotal measure upTo ≤ later.plannerTotal measure upTo)
    LowersNothing (fun _ _ lowers atMost => atMost.trans (plannerTotal_le_next measures ofNothing upTo lowers))
    recorder events le_rfl lowersNothing

end Totals

theorem llmUpTo_eq (recorder : AnytimeRunRecorder) (iteration : ℤ) (column : LlmColumn) :
    recorder.snapshot.phases.totalUpTo (·.llm column) iteration =
      recorder.plannerTotal (PhaseRow.llmOfPlanner · column) iteration +
        requestTotal recorder.requests (PhaseRow.llmOfCounts · column) (· ≤ iteration) :=
  llmUpTo_snapshotPhases iteration column

theorem searchUpTo_eq (recorder : AnytimeRunRecorder) (iteration : ℤ) (column : SearchColumn) :
    recorder.snapshot.phases.totalUpTo (·.search column) iteration =
      recorder.plannerTotal (fun numbers => numbers (.phase column)) iteration :=
  (searchUpTo_snapshotPhases iteration column).trans Dictionary.totalUpTo_eq_total

/-- Along a run of events that lower nothing, no total falls. -/
theorem notAbove_runFrom {events : List AnytimeEvent}
    (lowersNothing : anytimeRunRecorder.StepsMeet LowersNothing recorder events) :
    recorder.snapshot.NotAbove (anytimeRunRecorder.runFrom recorder events).snapshot where
  runTotals count := by
    rw [snapshot_count, snapshot_count]
    have measures : Monotone fun counts : RequestCount → ℕ => counts count := fun _ _ larger => larger count
    have atMost := requestTotal_le_runFrom measures rfl (fun _ => True) lowersNothing
    simpa [requestTotal] using atMost
  counts iteration row row' isRow isRow' count := by
    have counted := count_snapshotPhases recorder iteration count
    have counted' := count_snapshotPhases (anytimeRunRecorder.runFrom recorder events) iteration count
    change recorder.snapshotPhases.get? iteration = some row at isRow
    change (anytimeRunRecorder.runFrom recorder events).snapshotPhases.get? iteration = some row' at isRow'
    rw [isRow, Option.elim_some] at counted
    rw [isRow', Option.elim_some] at counted'
    rw [counted, counted']
    have measures : Monotone fun counts : RequestCount → ℕ => counts count := fun _ _ larger => larger count
    exact requestTotal_le_runFrom measures rfl (· = iteration) lowersNothing
  llmTotals iteration row row' isRow isRow' column := by
    rw [(snapshot_consistent _).llmTotals iteration row isRow, (snapshot_consistent _).llmTotals iteration row' isRow',
      llmUpTo_eq, llmUpTo_eq]
    apply add_le_add
    · exact plannerTotal_le_runFrom (PhaseRow.llmOfPlanner_mono column) (by cases column <;> rfl) iteration
        lowersNothing
    · exact requestTotal_le_runFrom (PhaseRow.llmOfCounts_mono column) (by cases column <;> rfl) _ lowersNothing
  searchTotals iteration row row' totals totals' isRow isRow' isTotals isTotals' column := by
    rw [(snapshot_consistent _).searchTotals iteration row totals isRow isTotals,
      (snapshot_consistent _).searchTotals iteration row' totals' isRow' isTotals', searchUpTo_eq, searchUpTo_eq]
    exact plannerTotal_le_runFrom (fun _ _ larger => larger _) rfl iteration lowersNothing

/-! ## The iteration of a request -/

theorem iteration_next {requestId : String} {iteration : ℤ} {event : AnytimeEvent}
    (notAgain : ∀ other, event ≠ .requestReceived requestId other)
    (isIteration : (recorder.requests.row requestId).iteration = some iteration) :
    ((recorder.next event).requests.row requestId).iteration = some iteration := by
  -- Rows of other requests are not touched, and no other event writes the column.
  have inserted : ∀ other row, (other = requestId → row.iteration = (recorder.requests.row requestId).iteration) →
      ((⟨recorder.requests.requests.insert other row⟩ : RunRecorder).row requestId).iteration = some iteration := by
    intro other row keeps
    by_cases same : requestId = other
    · subst same
      rw [RunRecorder.row, Dictionary.get?_insert_self, Option.getD_some, keeps rfl, isIteration]
    · rw [RunRecorder.row, Dictionary.get?_insert_of_ne same, ← RunRecorder.row, isIteration]
  have marked : ∀ ended cancellations,
      ((recorder.requests.markIterationStale ended cancellations).row requestId).iteration = some iteration := by
    intro ended cancellations
    rw [RunRecorder.row] at isIteration
    cases isRow : recorder.requests.requests.get? requestId with
    | none =>
      rw [isRow] at isIteration
      cases isIteration
    | some row =>
      rw [isRow, Option.getD_some] at isIteration
      rw [RunRecorder.row, RunRecorder.get?_markIterationStale isRow, Option.getD_some, ← isIteration]
      split
      · rfl
      · split
        · rfl
        · rfl
  cases event with
  | requestReceived other iteration' =>
    apply inserted
    rintro rfl
    exact absurd rfl (notAgain iteration')
  | modelStarted other generationCount => exact inserted _ _ fun same => by rw [same]
  | requestFinished other finished => exact inserted _ _ fun same => by rw [same]
  | inject other => exact inserted _ _ fun same => by rw [same]
  | bridgeTransport other error => exact inserted _ _ fun same => by rw [same]
  | bridgePhaseEnd other => exact inserted _ _ fun same => by rw [same]
  | phaseEnd ended values cancellations => exact marked ended cancellations
  | plannerStopped ended cancellations => exact marked ended cancellations
  | phaseStart | triggerStats | incumbent => exact isIteration

theorem iteration_runFrom {requestId : String} {iteration : ℤ} {events : List AnytimeEvent}
    (notAgain : ∀ other, .requestReceived requestId other ∉ events)
    (isIteration : (recorder.requests.row requestId).iteration = some iteration) :
    ((anytimeRunRecorder.runFrom recorder events).requests.row requestId).iteration = some iteration := by
  induction events generalizing recorder with
  | nil => exact isIteration
  | cons event events inductionHypothesis =>
    apply inductionHypothesis
    · exact fun other isLater => notAgain other (List.mem_cons_of_mem _ isLater)
    · exact iteration_next (fun other same => notAgain other (same ▸ List.mem_cons_self)) isIteration

end AnytimeRunRecorder

/-! ## Runs -/

/-- The request that an event reports on, other than that it is received. -/
def AnytimeEvent.reportedId : AnytimeEvent → Option String
  | .modelStarted requestId _ | .requestFinished requestId _ | .inject requestId | .bridgeTransport requestId _
  | .bridgePhaseEnd requestId => some requestId
  | _ => none

/-- Every request is received before anything else is reported on it. -/
def ReceivedFirst (events : List AnytimeEvent) : Prop :=
  ∀ earlier event later requestId, events = earlier ++ event :: later → event.reportedId = some requestId →
    (∃ iteration, .requestReceived requestId iteration ∈ earlier) ∧
      ∀ iteration, .requestReceived requestId iteration ∉ later

/-- A request has the iteration in its row for which it was received last. -/
def OwnIterations (events : List AnytimeEvent) : Prop :=
  ∀ earlier requestId iteration later, events = earlier ++ .requestReceived requestId iteration :: later →
    (∀ other, .requestReceived requestId other ∉ later) →
    ∃ request, (requestId, request) ∈ (anytimeRunRecorder.run events).snapshot.requests.requests ∧
      request.phase = iteration

/-- After every sequence of events the snapshot adds up, requests count for their own iterations, and no total
has fallen since an earlier snapshot if the events in between lower nothing. -/
structure TotalsConsistent (events : List AnytimeEvent) : Prop where
  snapshots : (anytimeRunRecorder.run events).snapshot.Consistent
  ownIterations : OwnIterations events
  searched : ∀ iteration, ((anytimeRunRecorder.run events).phases.get? iteration).isSome →
    ∃ row, (anytimeRunRecorder.run events).snapshot.phases.get? iteration = some row ∧ row.searchTotals.isSome
  notFalling : ∀ earlier later, events = earlier ++ later →
    anytimeRunRecorder.StepsMeet AnytimeRunRecorder.LowersNothing (anytimeRunRecorder.run earlier) later →
    (anytimeRunRecorder.run earlier).snapshot.NotAbove (anytimeRunRecorder.run events).snapshot

theorem totalsConsistent (events : List AnytimeEvent) : TotalsConsistent events where
  snapshots := AnytimeRunRecorder.snapshot_consistent _
  ownIterations := by
    rintro earlier requestId iteration later rfl notAgain
    have received : (((anytimeRunRecorder.run earlier).next (.requestReceived requestId iteration)).requests.row
        requestId).iteration = some iteration := by
      change ((RunRecorder.requestReceived _ _ _).row requestId).iteration = _
      rw [RunRecorder.row, RunRecorder.get?_requestReceived_self]
      rfl
    have isIteration := AnytimeRunRecorder.iteration_runFrom notAgain received
    have whole : anytimeRunRecorder.run (earlier ++ .requestReceived requestId iteration :: later) =
        anytimeRunRecorder.runFrom ((anytimeRunRecorder.run earlier).next (.requestReceived requestId iteration))
          later := Machine.runFrom_append _ _ _ _
    rw [← whole] at isIteration
    change ∃ request, _ ∈ (anytimeRunRecorder.run _).requests.snapshot.requests ∧ _
    rw [RunRecorder.snapshot_requests]
    rw [RunRecorder.row] at isIteration
    cases isRow : (anytimeRunRecorder.run
        (earlier ++ .requestReceived requestId iteration :: later)).requests.requests.get? requestId with
    | none =>
      rw [isRow] at isIteration
      cases isIteration
    | some row =>
      rw [isRow, Option.getD_some] at isIteration
      exact ⟨row, Dictionary.get?_eq_some.mp isRow, by rw [RequestRow.phase, isIteration, Option.getD_some]⟩
  searched iteration isPhase := by
    obtain ⟨phase, isPhase⟩ := Option.isSome_iff_exists.mp isPhase
    have recorded := AnytimeRunRecorder.searchTotals_snapshotPhases (anytimeRunRecorder.run events) iteration
    rw [isPhase, Option.map_some] at recorded
    change ∃ row, (anytimeRunRecorder.run events).snapshotPhases.get? iteration = some row ∧ _
    cases isRow : (anytimeRunRecorder.run events).snapshotPhases.get? iteration with
    | none =>
      rw [isRow] at recorded
      cases recorded
    | some row =>
      rw [isRow, Option.elim_some] at recorded
      exact ⟨row, rfl, by rw [recorded]; rfl⟩
  notFalling := by
    rintro earlier later rfl lowersNothing
    have whole : anytimeRunRecorder.run (earlier ++ later) =
        anytimeRunRecorder.runFrom (anytimeRunRecorder.run earlier) later := Machine.runFrom_append _ _ _ _
    rw [whole]
    exact AnytimeRunRecorder.notAbove_runFrom lowersNothing

/-- A request that is finished a second time, with fewer samples. -/
def finishedTwice : List AnytimeEvent :=
  [.requestReceived "r" 1, .requestFinished "r" ⟨.ok, 2, 1, ""⟩, .requestFinished "r" ⟨.partialPlan, 1, 1, ""⟩]

theorem receivedFirst_finishedTwice : ReceivedFirst finishedTwice := by
  intro earlier event later requestId split reported
  match earlier with
  | [] =>
    cases split
    cases reported
  | [_] =>
    cases split
    cases reported
    exact ⟨⟨1, by simp⟩, by simp⟩
  | [_, _] =>
    cases split
    cases reported
    exact ⟨⟨1, by simp⟩, by simp⟩
  | _ :: _ :: _ :: rest =>
    have lengths := congrArg List.length split
    simp only [finishedTwice, List.length_cons, List.length_append, List.length_nil] at lengths
    omega

theorem completedSamples_finishedTwice : ReceivedFirst finishedTwice ∧
    ¬ (anytimeRunRecorder.run (finishedTwice.take 2)).snapshot.NotAbove
        (anytimeRunRecorder.run finishedTwice).snapshot := by
  refine ⟨receivedFirst_finishedTwice, fun notAbove => ?_⟩
  exact absurd (notAbove.runTotals .completedSamples) (by decide +kernel)

end CutPlan.Controller
