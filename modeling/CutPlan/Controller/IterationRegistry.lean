import CutPlan.Lib.Dictionary
import CutPlan.Lib.Machine
import Mathlib.Data.Int.Notation

/-! # The active iteration

`ActiveIterationRegistry`: the one phase whose model responses may still affect the search, and the
futures of its requests.  Its lock makes every call one step.
-/

namespace CutPlan.Controller

open CutPlan.Lib

structure ActiveIterationRegistry (Future : Type) where
  runId : String
  activeIteration : Option ℤ
  lifecycleSeen : Bool
  futures : Dictionary String (ℤ × Future)

/-- A future that `end_iteration` has asked to cancel, and whether it accepted. -/
structure Cancellation (Future : Type) where
  requestId : String
  future : Future
  accepted : Bool

namespace ActiveIterationRegistry

variable {Future : Type} (registry : ActiveIterationRegistry Future)

def start (runId : String) : ActiveIterationRegistry Future where
  runId
  activeIteration := none
  lifecycleSeen := false
  futures := .empty

def startIteration (iteration : ℤ) : ActiveIterationRegistry Future :=
  { registry with lifecycleSeen := true, activeIteration := some iteration }

/-- A search that announces no phases has the phase of its first request. -/
def acceptRequest (runId : String) (iteration : ℤ) : Bool × ActiveIterationRegistry Future :=
  if runId ≠ registry.runId then (false, registry)
  else
    let accepting : ActiveIterationRegistry Future :=
      if registry.activeIteration = none ∧ registry.lifecycleSeen = false then
        { registry with activeIteration := some iteration }
      else registry
    (accepting.activeIteration = some iteration, accepting)

def isActive (runId : String) (iteration : ℤ) : Bool :=
  runId = registry.runId && registry.activeIteration = some iteration

def registerFuture (runId : String) (iteration : ℤ) (requestId : String) (future : Future) :
    Bool × ActiveIterationRegistry Future :=
  if runId ≠ registry.runId ∨ registry.activeIteration ≠ some iteration then (false, registry)
  else (true, { registry with futures := registry.futures.insert requestId (iteration, future) })

def unregisterFuture (requestId : String) : ActiveIterationRegistry Future :=
  { registry with futures := registry.futures.erase requestId }

/-- The entries of an iteration, in the order of their registration. -/
def entriesOf (iteration : ℤ) : List (String × ℤ × Future) :=
  registry.futures.entries.filter (·.2.1 = iteration)

/-- `accepts` says which futures can still be cancelled. -/
def endIteration (accepts : Future → Bool) (iteration : ℤ) :
    List (Cancellation Future) × ActiveIterationRegistry Future :=
  ((registry.entriesOf iteration).map fun entry => ⟨entry.1, entry.2.2, accepts entry.2.2⟩,
    { registry with
      activeIteration :=
        if registry.activeIteration = some iteration then none else registry.activeIteration
      futures := registry.futures.filter (·.2.1 ≠ iteration) })

end ActiveIterationRegistry

/-! ## Calls -/

inductive RegistryCall (Future : Type) where
  | startIteration (iteration : ℤ)
  | acceptRequest (runId : String) (iteration : ℤ)
  | isActive (runId : String) (iteration : ℤ)
  | registerFuture (runId : String) (iteration : ℤ) (requestId : String) (future : Future)
  | unregisterFuture (requestId : String)
  | endIteration (iteration : ℤ) (accepts : Future → Bool)

namespace RegistryCall

variable {Future : Type}

/-- The request whose future a call registers. -/
def registers : RegistryCall Future → Option String
  | .registerFuture _ _ requestId _ => some requestId
  | _ => none

/-- Whether a call asks for the iteration to be active in order to start work in it. -/
def Claims (iteration : ℤ) : RegistryCall Future → Prop
  | .acceptRequest _ claimed | .registerFuture _ claimed _ _ => claimed = iteration
  | _ => False

def IsStart (iteration : ℤ) : RegistryCall Future → Prop
  | .startIteration started => started = iteration
  | _ => False

end RegistryCall

/-- The registry with the futures that were ever asked to cancel. -/
structure RegistryState (Future : Type) where
  registry : ActiveIterationRegistry Future
  asked : List Future

namespace RegistryState

variable {Future : Type} (state : RegistryState Future)

/-- What a call returns, for the calls that return whether they succeed. -/
def succeeds : RegistryCall Future → Bool
  | .acceptRequest runId iteration => (state.registry.acceptRequest runId iteration).1
  | .isActive runId iteration => state.registry.isActive runId iteration
  | .registerFuture runId iteration requestId future =>
    (state.registry.registerFuture runId iteration requestId future).1
  | _ => true

def next : RegistryCall Future → RegistryState Future
  | .startIteration iteration => { state with registry := state.registry.startIteration iteration }
  | .acceptRequest runId iteration =>
    { state with registry := (state.registry.acceptRequest runId iteration).2 }
  | .isActive _ _ => state
  | .registerFuture runId iteration requestId future =>
    { state with registry := (state.registry.registerFuture runId iteration requestId future).2 }
  | .unregisterFuture requestId => { state with registry := state.registry.unregisterFuture requestId }
  | .endIteration iteration accepts =>
    let (cancelled, registry) := state.registry.endIteration accepts iteration
    { registry, asked := state.asked ++ cancelled.map Cancellation.future }

end RegistryState

def registryMachine (Future : Type) (runId : String) : Machine (RegistryState Future) (RegistryCall Future) where
  start := ⟨.start runId, []⟩
  next := RegistryState.next

namespace RegistryState

variable {Future : Type} {state : RegistryState Future}

/-! ## Ended iterations -/

/-- An iteration that only an announcement can activate. -/
def Closed (iteration : ℤ) (state : RegistryState Future) : Prop :=
  state.registry.lifecycleSeen = true ∧ state.registry.activeIteration ≠ some iteration

theorem next_lifecycleSeen (seen : state.registry.lifecycleSeen = true) (call : RegistryCall Future) :
    (state.next call).registry.lifecycleSeen = true := by
  cases call with
  | startIteration iteration => rfl
  | acceptRequest runId iteration =>
    simp only [next, ActiveIterationRegistry.acceptRequest]
    split
    · exact seen
    · split
      · exact seen
      · exact seen
  | isActive runId iteration => exact seen
  | registerFuture runId iteration requestId future =>
    simp only [next, ActiveIterationRegistry.registerFuture]
    split
    · exact seen
    · exact seen
  | unregisterFuture requestId => exact seen
  | endIteration iteration accepts => exact seen

theorem Closed.next {iteration : ℤ} (closed : state.Closed iteration) {call : RegistryCall Future}
    (notStart : ¬ call.IsStart iteration) : (state.next call).Closed iteration := by
  refine ⟨next_lifecycleSeen closed.1 call, ?_⟩
  cases call with
  | startIteration started =>
    intro isActive
    exact notStart (Option.some.inj isActive)
  | acceptRequest runId claimed =>
    simp only [RegistryState.next, ActiveIterationRegistry.acceptRequest, closed.1]
    split
    · exact closed.2
    · simpa using closed.2
  | isActive runId claimed => exact closed.2
  | registerFuture runId claimed requestId future =>
    simp only [RegistryState.next, ActiveIterationRegistry.registerFuture]
    split
    · exact closed.2
    · exact closed.2
  | unregisterFuture requestId => exact closed.2
  | endIteration ended accepts =>
    simp only [RegistryState.next, ActiveIterationRegistry.endIteration]
    split
    · simp
    · exact closed.2

theorem Closed.refuses {iteration : ℤ} (closed : state.Closed iteration) {call : RegistryCall Future}
    (claims : call.Claims iteration) : state.succeeds call = false := by
  cases call with
  | acceptRequest runId claimed =>
    obtain rfl : claimed = iteration := claims
    simp only [succeeds, ActiveIterationRegistry.acceptRequest, closed.1]
    split
    · rfl
    · simpa using closed.2
  | registerFuture runId claimed requestId future =>
    obtain rfl : claimed = iteration := claims
    simp [succeeds, ActiveIterationRegistry.registerFuture, closed.2]
  | startIteration _ | isActive _ _ | unregisterFuture _ | endIteration _ _ => exact claims.elim

theorem closed_endIteration (seen : state.registry.lifecycleSeen = true) (iteration : ℤ)
    (accepts : Future → Bool) : (state.next (.endIteration iteration accepts)).Closed iteration := by
  refine ⟨next_lifecycleSeen seen _, ?_⟩
  simp only [RegistryState.next, ActiveIterationRegistry.endIteration]
  split
  · simp
  · assumption

/-! ## Registered futures -/

/-- The future of a request is registered, or it has been asked to cancel. -/
def Holds (requestId : String) (iteration : ℤ) (future : Future) (state : RegistryState Future) : Prop :=
  (requestId, iteration, future) ∈ state.registry.futures.entries ∨ future ∈ state.asked

theorem holds_registered {runId requestId : String} {iteration : ℤ} {future : Future}
    (success : state.succeeds (.registerFuture runId iteration requestId future) = true) :
    (state.next (.registerFuture runId iteration requestId future)).Holds requestId iteration future := by
  simp only [succeeds, ActiveIterationRegistry.registerFuture] at success
  split at success
  · cases success
  · rename_i active
    left
    simp only [RegistryState.next, ActiveIterationRegistry.registerFuture, if_neg active]
    exact Dictionary.mem_insert.mpr (.inl ⟨rfl, rfl⟩)

theorem Holds.next {requestId : String} {iteration : ℤ} {future : Future}
    (holds : state.Holds requestId iteration future) {call : RegistryCall Future}
    (kept : call ≠ .unregisterFuture requestId) (distinct : call.registers ≠ some requestId) :
    (state.next call).Holds requestId iteration future := by
  obtain registered | asked := holds
  · cases call with
    | startIteration _ | isActive _ _ => exact .inl registered
    | acceptRequest runId claimed =>
      left
      simp only [RegistryState.next, ActiveIterationRegistry.acceptRequest]
      split
      · exact registered
      · split
        · exact registered
        · exact registered
    | registerFuture runId claimed other future' =>
      left
      simp only [RegistryState.next, ActiveIterationRegistry.registerFuture]
      split
      · exact registered
      · refine Dictionary.mem_insert.mpr (.inr ⟨?_, registered⟩)
        rintro rfl
        exact distinct rfl
    | unregisterFuture other =>
      refine .inl (Dictionary.mem_erase.mpr ⟨?_, registered⟩)
      rintro rfl
      exact kept rfl
    | endIteration ended accepts =>
      by_cases isEnded : iteration = ended
      · right
        simp only [RegistryState.next, ActiveIterationRegistry.endIteration, List.map_map, List.mem_append,
          List.mem_map]
        exact .inr ⟨_, List.mem_filter.mpr ⟨registered, by simpa using isEnded⟩, rfl⟩
      · exact .inl (Dictionary.mem_filter.mpr ⟨registered, by simpa using isEnded⟩)
  · cases call with
    | endIteration ended accepts => exact .inr (List.mem_append_left _ asked)
    | startIteration _ | acceptRequest _ _ | isActive _ _ | registerFuture _ _ _ _ | unregisterFuture _ =>
      exact .inr asked

end RegistryState

/-! ## Runs -/

section Runs

variable {Future : Type} (runId : String)

theorem holds_runFrom {requestId : String} {iteration : ℤ} {future : Future} {state : RegistryState Future}
    (holds : state.Holds requestId iteration future) (calls : List (RegistryCall Future))
    (kept : .unregisterFuture requestId ∉ calls) (distinct : requestId ∉ calls.filterMap RegistryCall.registers) :
    ((registryMachine Future runId).runFrom state calls).Holds requestId iteration future := by
  induction calls generalizing state with
  | nil => exact holds
  | cons call calls inductionHypothesis =>
    rw [List.mem_cons, not_or] at kept
    have notAgain : ∀ later ∈ call :: calls, later.registers ≠ some requestId :=
      fun later isLater registers => distinct (List.mem_filterMap.mpr ⟨later, isLater, registers⟩)
    apply inductionHypothesis (holds.next (Ne.symm kept.1) (notAgain call (List.mem_cons_self ..))) kept.2
    intro again
    obtain ⟨later, isLater, registers⟩ := List.mem_filterMap.mp again
    exact notAgain later (List.mem_cons_of_mem _ isLater) registers

theorem closed_runFrom {iteration : ℤ} {state : RegistryState Future} (closed : state.Closed iteration)
    (calls : List (RegistryCall Future)) (notStarted : ∀ call ∈ calls, ¬ call.IsStart iteration) :
    ((registryMachine Future runId).runFrom state calls).Closed iteration := by
  induction calls generalizing state with
  | nil => exact closed
  | cons call calls inductionHypothesis =>
    rw [List.forall_mem_cons] at notStarted
    exact inductionHypothesis (closed.next notStarted.1) notStarted.2

theorem lifecycleSeen_runFrom {state : RegistryState Future} (seen : state.registry.lifecycleSeen = true)
    (calls : List (RegistryCall Future)) :
    ((registryMachine Future runId).runFrom state calls).registry.lifecycleSeen = true := by
  induction calls generalizing state with
  | nil => exact seen
  | cons call calls inductionHypothesis => exact inductionHypothesis (RegistryState.next_lifecycleSeen seen call)

/-- Once an iteration has ended all its futures have been asked to cancel, none is left, and nothing is
accepted for it until it is started again.  Other iterations keep their futures. -/
theorem end_iteration_safe (first : ℤ) (before after : List (RegistryCall Future)) (iteration : ℤ)
    (accepts : Future → Bool)
    (distinct : ((before ++ after).filterMap RegistryCall.registers).Nodup) :
    let machine := registryMachine Future runId
    let calls := .startIteration first :: before
    let ended := machine.next (machine.run calls) (.endIteration iteration accepts)
    (∀ earlier later runId requestId future,
      calls = earlier ++ .registerFuture runId iteration requestId future :: later →
      (machine.run earlier).succeeds (.registerFuture runId iteration requestId future) = true →
      .unregisterFuture requestId ∉ later → future ∈ ended.asked) ∧
    (∀ entry ∈ ended.registry.futures.entries, entry.2.1 ≠ iteration) ∧
    ((∀ call ∈ after, ¬ call.IsStart iteration) → ∀ earlier call later, after = earlier ++ call :: later →
      call.Claims iteration → (machine.runFrom ended earlier).succeeds call = false) ∧
    ended.registry.futures.entries =
      (machine.run calls).registry.futures.entries.filter (·.2.1 ≠ iteration) ∧
    ended.asked = (machine.run calls).asked ++
      ((machine.run calls).registry.entriesOf iteration).map (·.2.2) := by
  intro machine calls ended
  refine ⟨?_, ?_, ?_, rfl, ?_⟩
  · intro earlier later runId' requestId future split success kept
    have run : machine.run calls =
        machine.runFrom ((machine.run earlier).next (.registerFuture runId' iteration requestId future)) later := by
      rw [split, Machine.run, Machine.runFrom_append]
      rfl
    have notAgain : requestId ∉ later.filterMap RegistryCall.registers := by
      have distinctCalls : (calls.filterMap RegistryCall.registers).Nodup := by
        rw [List.filterMap_append] at distinct
        exact distinct.of_append_left
      rw [split, List.filterMap_append, List.filterMap_cons] at distinctCalls
      exact (List.nodup_cons.mp distinctCalls.of_append_right).1
    have holds := holds_runFrom runId (RegistryState.holds_registered success) later kept notAgain
    obtain registered | asked : (machine.run calls).Holds requestId iteration future := by
      rw [run]
      exact holds
    · simp only [ended, machine, registryMachine, RegistryState.next, ActiveIterationRegistry.endIteration,
        List.map_map, List.mem_append, List.mem_map]
      exact .inr ⟨_, List.mem_filter.mpr ⟨registered, by simp⟩, rfl⟩
    · exact List.mem_append_left _ asked
  · intro entry isEntry
    simpa using (Dictionary.mem_filter.mp isEntry).2
  · intro notStarted earlier call later split claims
    have started : (machine.next machine.start (.startIteration first)).registry.lifecycleSeen = true := rfl
    have seen : (machine.run calls).registry.lifecycleSeen = true :=
      lifecycleSeen_runFrom runId started before
    have closed := RegistryState.closed_endIteration seen iteration accepts
    refine (closed_runFrom runId closed earlier ?_).refuses claims
    intro call isEarlier
    apply notStarted
    rw [split]
    exact List.mem_append_left _ isEarlier
  · simp only [ended, machine, registryMachine, RegistryState.next, ActiveIterationRegistry.endIteration,
      List.map_map]
    rfl

/-- The future 7 is asked to cancel, and its iteration accepts no further request. -/
theorem registered_future_cancelled :
    let state := (registryMachine ℕ "run").run
      [.startIteration 1, .registerFuture "run" 1 "request" 7, .endIteration 1 fun _ => true]
    7 ∈ state.asked ∧ state.succeeds (.acceptRequest "run" 1) = false := by
  obtain ⟨asked, _, refused, _⟩ := end_iteration_safe "run" 1
    [.registerFuture "run" 1 "request" 7] [.acceptRequest "run" 1] 1 (fun _ => true) (by decide)
  refine ⟨asked [.startIteration 1] [] "run" "request" 7 rfl (by decide) (by simp), ?_⟩
  exact refused (by simp [RegistryCall.IsStart]) [] _ [] rfl rfl

end Runs

end CutPlan.Controller
