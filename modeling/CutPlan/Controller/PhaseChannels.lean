import CutPlan.Controller.IterationRegistry
import Mathlib.Data.List.Chain

/-! # Two channels from the planner

The planner announces its phases on one channel and sends requests on another.  Nothing orders the two,
and the handlers of the requests run beside the thread that reads the announcements.
-/

namespace CutPlan.Controller

open CutPlan.Lib

inductive PhaseLine where
  | phaseStart (iteration : ℤ)
  | phaseEnd (iteration : ℤ)
  deriving DecidableEq, Repr

inductive RequestStage where
  | accepted
  | waiting
  | answered (stale : Bool)
  deriving DecidableEq, Repr

structure RequestHandler where
  iteration : ℤ
  stage : RequestStage
  deriving DecidableEq, Repr

/-- The planner with the phases it has completed, the two channels, and the controller.  The future of a
request is named by the request's id. -/
structure PhaseSystem where
  completedPhases : ℕ
  searching : Bool
  stdout : List PhaseLine
  inFlight : Dictionary String ℤ
  linesRead : List PhaseLine
  registry : RegistryState String
  handlers : Dictionary String RequestHandler

inductive PhaseEvent where
  | startPhase
  | endPhase
  | send (requestId : String)
  | readLine
  | accept (requestId : String)
  | check (requestId : String)
  | register (requestId : String)
  | resume (requestId : String)
  | answer (requestId : String)
  deriving DecidableEq, Repr

namespace PhaseSystem

def start (runId : String) : PhaseSystem :=
  ⟨0, false, [], .empty, [], ⟨.start runId, []⟩, .empty⟩

variable (system : PhaseSystem)

def iteration : ℤ := system.completedPhases + 1

def setStage (requestId : String) (handler : RequestHandler) (stage : RequestStage) : PhaseSystem :=
  { system with handlers := system.handlers.insert requestId { handler with stage } }

/-- The calls that the reading thread makes for a line. -/
def lineCall : PhaseLine → RegistryCall String
  | .phaseStart iteration => .startIteration iteration
  | .phaseEnd iteration => .endIteration iteration fun _ => true

/-- A request of the run, with the answer `stale_iteration` if the registry refuses it. -/
def acceptRequest (requestId : String) (iteration : ℤ) : PhaseSystem :=
  let call := .acceptRequest system.registry.registry.runId iteration
  { system with
    inFlight := system.inFlight.erase requestId
    registry := system.registry.next call
    handlers := system.handlers.insert requestId
      ⟨iteration, if system.registry.succeeds call then .accepted else .answered true⟩ }

def isActive (iteration : ℤ) : Bool :=
  system.registry.registry.isActive system.registry.registry.runId iteration

def registerFuture (requestId : String) (handler : RequestHandler) : PhaseSystem :=
  let call := .registerFuture system.registry.registry.runId handler.iteration requestId requestId
  setStage { system with registry := system.registry.next call } requestId handler
    (if system.registry.succeeds call then .waiting else .answered true)

/-- The future has a result or was cancelled; it is unregistered in both cases. -/
def resume (requestId : String) (handler : RequestHandler) : PhaseSystem :=
  setStage { system with registry := system.registry.next (.unregisterFuture requestId) } requestId handler
    (if requestId ∈ system.registry.asked then .answered true else .accepted)

/-- What is not possible in a state changes nothing: the planner sends in a phase only and never repeats an
id, and a handler goes through its stages. -/
def next : PhaseEvent → PhaseSystem
  | .startPhase =>
    if system.searching then system
    else { system with searching := true, stdout := system.stdout ++ [.phaseStart system.iteration] }
  | .endPhase =>
    if system.searching then
      { system with
        searching := false
        completedPhases := system.completedPhases + 1
        stdout := system.stdout ++ [.phaseEnd system.iteration] }
    else system
  | .send requestId =>
    if system.searching && (system.inFlight.get? requestId).isNone &&
        (system.handlers.get? requestId).isNone then
      { system with inFlight := system.inFlight.insert requestId system.iteration }
    else system
  | .readLine =>
    match system.stdout with
    | [] => system
    | line :: stdout =>
      { system with
        stdout
        linesRead := system.linesRead ++ [line]
        registry := system.registry.next (lineCall line) }
  | .accept requestId =>
    match system.inFlight.get? requestId with
    | some iteration => system.acceptRequest requestId iteration
    | none => system
  | .check requestId =>
    match system.handlers.get? requestId with
    | some ⟨iteration, .accepted⟩ =>
      if system.isActive iteration then system
      else system.setStage requestId ⟨iteration, .accepted⟩ (.answered true)
    | _ => system
  | .register requestId =>
    match system.handlers.get? requestId with
    | some ⟨iteration, .accepted⟩ => system.registerFuture requestId ⟨iteration, .accepted⟩
    | _ => system
  | .resume requestId =>
    match system.handlers.get? requestId with
    | some ⟨iteration, .waiting⟩ => system.resume requestId ⟨iteration, .waiting⟩
    | _ => system
  | .answer requestId =>
    match system.handlers.get? requestId with
    | some ⟨iteration, .accepted⟩ =>
      system.setStage requestId ⟨iteration, .accepted⟩ (.answered (!system.isActive iteration))
    | _ => system

end PhaseSystem

def phaseMachine (runId : String) : Machine PhaseSystem PhaseEvent where
  start := .start runId
  next := PhaseSystem.next

/-! ## The announcements -/

/-- The end of a phase follows its start. -/
def PhaseLine.Precedes (line following : PhaseLine) : Prop :=
  ∀ iteration, line = .phaseStart iteration → following = .phaseEnd iteration

namespace PhaseSystem

variable {system : PhaseSystem}

structure Announces (system : PhaseSystem) : Prop where
  ordered : (system.linesRead ++ system.stdout).IsChain PhaseLine.Precedes
  searching : system.searching = true →
    (system.linesRead ++ system.stdout).getLast? = some (.phaseStart system.iteration)
  idle : system.searching = false → ∀ iteration,
    (system.linesRead ++ system.stdout).getLast? ≠ some (.phaseStart iteration)

theorem Announces.print {line : PhaseLine} (announces : system.Announces)
    (follows : ∀ last, (system.linesRead ++ system.stdout).getLast? = some last → last.Precedes line) :
    (system.linesRead ++ (system.stdout ++ [line])).IsChain PhaseLine.Precedes := by
  rw [← List.append_assoc, List.isChain_append]
  refine ⟨announces.ordered, List.isChain_singleton line, ?_⟩
  intro last isLast following isFollowing
  cases isFollowing
  exact follows last isLast

/-- What has been started and not ended according to the lines read was started by the last one. -/
theorem Announces.getLast?_of_started (announces : system.Announces) {iteration : ℤ}
    (started : .phaseStart iteration ∈ system.linesRead) (running : .phaseEnd iteration ∉ system.linesRead) :
    system.linesRead.getLast? = some (.phaseStart iteration) := by
  obtain ⟨before, after, isRead⟩ := List.append_of_mem started
  rw [isRead]
  cases after with
  | nil => simp
  | cons following after =>
    have ordered := (List.isChain_append.mp announces.ordered).1
    rw [isRead, List.isChain_append, List.isChain_cons_cons] at ordered
    have isEnd := ordered.2.1.1 iteration rfl
    rw [isRead, isEnd] at running
    simp at running

/-! ## The registry -/

/-- What the registry has learnt from the lines read, and whose futures it keeps. -/
structure Follows (system : PhaseSystem) : Prop where
  active : ∀ iteration, system.linesRead.getLast? = some (.phaseStart iteration) →
    system.registry.registry.activeIteration = some iteration
  registered : ∀ requestId iteration future,
    (requestId, iteration, future) ∈ system.registry.registry.futures.entries →
    future = requestId ∧ ∃ handler, system.handlers.get? requestId = some handler ∧
      handler.iteration = iteration
  cancelled : ∀ requestId ∈ system.registry.asked, ∃ handler,
    system.handlers.get? requestId = some handler ∧ .phaseEnd handler.iteration ∈ system.linesRead
  fresh : ∀ requestId, (system.inFlight.get? requestId).isSome = true → system.handlers.get? requestId = none

/-- A handler keeps its iteration. -/
def KeepsHandlers (system system' : PhaseSystem) : Prop :=
  ∀ requestId handler, system.handlers.get? requestId = some handler →
    ∃ kept, system'.handlers.get? requestId = some kept ∧ kept.iteration = handler.iteration

variable {system' : PhaseSystem}

theorem keepsHandlers_insert {requestId : String} {handler : RequestHandler}
    (same : ∀ old, system.handlers.get? requestId = some old → handler.iteration = old.iteration)
    (inserts : system'.handlers = system.handlers.insert requestId handler) :
    KeepsHandlers system system' := by
  intro other old isOld
  rw [inserts]
  by_cases sameId : other = requestId
  · subst sameId
    exact ⟨handler, Dictionary.get?_insert_self _ _, same old isOld⟩
  · rw [Dictionary.get?_insert_of_ne sameId]
    exact ⟨old, isOld, rfl⟩

/-- A step that reads no line. -/
theorem Follows.step (follows : system.Follows) (sameLines : system'.linesRead = system.linesRead)
    (keepsActive : ∀ iteration, system.registry.registry.activeIteration = some iteration →
      system'.registry.registry.activeIteration = some iteration)
    (sameAsked : system'.registry.asked = system.registry.asked)
    (registered : ∀ requestId iteration future,
      (requestId, iteration, future) ∈ system'.registry.registry.futures.entries →
      (requestId, iteration, future) ∈ system.registry.registry.futures.entries ∨
        future = requestId ∧ ∃ handler, system'.handlers.get? requestId = some handler ∧
          handler.iteration = iteration)
    (keeps : KeepsHandlers system system')
    (fresh : ∀ requestId, (system'.inFlight.get? requestId).isSome = true →
      system'.handlers.get? requestId = none) : system'.Follows where
  active := by
    rw [sameLines]
    exact fun iteration isLast => keepsActive iteration (follows.active iteration isLast)
  registered := by
    intro requestId iteration future isEntry
    obtain isOld | isNew := registered requestId iteration future isEntry
    · obtain ⟨isFuture, handler, isHandler, hasIteration⟩ := follows.registered _ _ _ isOld
      obtain ⟨kept, isKept, sameIteration⟩ := keeps requestId handler isHandler
      exact ⟨isFuture, kept, isKept, sameIteration.trans hasIteration⟩
    · exact isNew
  cancelled := by
    rw [sameAsked, sameLines]
    intro requestId isAsked
    obtain ⟨handler, isHandler, ended⟩ := follows.cancelled requestId isAsked
    obtain ⟨kept, isKept, sameIteration⟩ := keeps requestId handler isHandler
    exact ⟨kept, isKept, by rwa [sameIteration]⟩
  fresh := fresh

theorem Follows.setStage (follows : system.Follows) {requestId : String} {handler : RequestHandler}
    (isHandler : system.handlers.get? requestId = some handler) (stage : RequestStage) :
    (system.setStage requestId handler stage).Follows := by
  refine follows.step rfl (fun _ => id) rfl (fun _ _ _ => .inl) ?_ ?_
  · apply keepsHandlers_insert _ rfl
    intro old isOld
    rw [isHandler] at isOld
    cases isOld
    rfl
  · intro other inFlight
    have isNone := follows.fresh other inFlight
    have different : other ≠ requestId := by
      rintro rfl
      rw [isHandler] at isNone
      cases isNone
    exact (Dictionary.get?_insert_of_ne different _).trans isNone

/-- A call that only concerns the registry. -/
theorem Follows.call (follows : system.Follows) (call : RegistryCall String)
    (keepsActive : ∀ iteration, system.registry.registry.activeIteration = some iteration →
      (system.registry.next call).registry.activeIteration = some iteration)
    (sameAsked : (system.registry.next call).asked = system.registry.asked)
    (registered : ∀ requestId iteration future,
      (requestId, iteration, future) ∈ (system.registry.next call).registry.futures.entries →
      (requestId, iteration, future) ∈ system.registry.registry.futures.entries ∨
        future = requestId ∧ ∃ handler, system.handlers.get? requestId = some handler ∧
          handler.iteration = iteration) :
    Follows { system with registry := system.registry.next call } :=
  follows.step rfl keepsActive sameAsked registered (fun _ handler isHandler => ⟨handler, isHandler, rfl⟩)
    follows.fresh

theorem acceptRequest_active {registry : RegistryState String} {runId : String} {claimed iteration : ℤ}
    (active : registry.registry.activeIteration = some iteration) :
    (registry.next (.acceptRequest runId claimed)).registry = registry.registry := by
  simp only [RegistryState.next, ActiveIterationRegistry.acceptRequest, active]
  split
  · rfl
  · rw [if_neg (by simp)]

theorem acceptRequest_futures (registry : RegistryState String) (runId : String) (claimed : ℤ) :
    (registry.next (.acceptRequest runId claimed)).registry.futures = registry.registry.futures := by
  simp only [RegistryState.next, ActiveIterationRegistry.acceptRequest]
  split
  · rfl
  · split
    · rfl
    · rfl

theorem Follows.acceptRequest (follows : system.Follows) {requestId : String} {iteration : ℤ}
    (inFlight : system.inFlight.get? requestId = some iteration) :
    (system.acceptRequest requestId iteration).Follows := by
  have isNew := follows.fresh requestId (by rw [inFlight]; rfl)
  refine follows.step rfl ?_ rfl ?_ ?_ ?_
  · intro active isActive
    exact (congrArg _ (acceptRequest_active isActive)).trans isActive
  · intro other otherIteration future isEntry
    left
    rw [← acceptRequest_futures system.registry system.registry.registry.runId iteration]
    exact isEntry
  · apply keepsHandlers_insert _ rfl
    intro old isOld
    rw [isNew] at isOld
    cases isOld
  · intro other isFlying
    obtain ⟨flying, isFlight⟩ := Option.isSome_iff_exists.mp isFlying
    obtain ⟨different, wasFlying⟩ := Dictionary.mem_erase.mp (Dictionary.get?_eq_some.mp isFlight)
    have isNone := follows.fresh other (by rw [Dictionary.get?_eq_some.mpr wasFlying]; rfl)
    exact (Dictionary.get?_insert_of_ne different _).trans isNone

theorem Follows.registerFuture (follows : system.Follows) {requestId : String} {handler : RequestHandler}
    (isHandler : system.handlers.get? requestId = some handler) :
    (system.registerFuture requestId handler).Follows := by
  have called : Follows { system with
      registry := system.registry.next
        (.registerFuture system.registry.registry.runId handler.iteration requestId requestId) } := by
    apply follows.call
    · intro iteration active
      simp only [RegistryState.next, ActiveIterationRegistry.registerFuture]
      split
      · exact active
      · exact active
    · rfl
    · intro other iteration future isEntry
      simp only [RegistryState.next, ActiveIterationRegistry.registerFuture] at isEntry
      split at isEntry
      · exact .inl isEntry
      · obtain ⟨rfl, isNew⟩ | ⟨_, isOld⟩ := Dictionary.mem_insert.mp isEntry
        · cases isNew
          exact .inr ⟨rfl, handler, isHandler, rfl⟩
        · exact .inl isOld
  exact called.setStage isHandler _

theorem Follows.resume (follows : system.Follows) {requestId : String} {handler : RequestHandler}
    (isHandler : system.handlers.get? requestId = some handler) : (system.resume requestId handler).Follows := by
  have called : Follows { system with registry := system.registry.next (.unregisterFuture requestId) } :=
    follows.call _ (fun _ => id) rfl fun _ _ _ isEntry => .inl (Dictionary.mem_erase.mp isEntry).2
  exact called.setStage isHandler _

theorem Follows.readLine (follows : system.Follows) (line : PhaseLine) (stdout : List PhaseLine) :
    Follows { system with
      stdout
      linesRead := system.linesRead ++ [line]
      registry := system.registry.next (lineCall line) } := by
  cases line with
  | phaseStart started =>
    refine ⟨?_, follows.registered, ?_, follows.fresh⟩
    · intro iteration isLast
      rw [List.getLast?_append] at isLast
      cases isLast
      rfl
    · intro requestId isAsked
      obtain ⟨handler, isHandler, ended⟩ := follows.cancelled requestId isAsked
      exact ⟨handler, isHandler, List.mem_append_left _ ended⟩
  | phaseEnd ended =>
    refine ⟨?_, ?_, ?_, follows.fresh⟩
    · intro iteration isLast
      rw [List.getLast?_append] at isLast
      cases isLast
    · intro requestId iteration future isEntry
      exact follows.registered _ _ _ (Dictionary.mem_filter.mp isEntry).1
    · intro requestId isAsked
      simp only [RegistryState.next, lineCall, ActiveIterationRegistry.endIteration, List.map_map,
        List.mem_append, List.mem_map] at isAsked
      obtain wasAsked | ⟨entry, isEntry, isFuture⟩ := isAsked
      · obtain ⟨handler, isHandler, isEnded⟩ := follows.cancelled requestId wasAsked
        exact ⟨handler, isHandler, List.mem_append_left _ isEnded⟩
      · obtain ⟨isRegistered, isOfEnded⟩ := List.mem_filter.mp isEntry
        obtain ⟨same, handler, isHandler, hasIteration⟩ := follows.registered _ _ _ isRegistered
        rw [← same] at isHandler
        obtain rfl : entry.2.2 = requestId := isFuture
        refine ⟨handler, isHandler, ?_⟩
        rw [hasIteration, show entry.2.1 = ended by simpa using isOfEnded]
        exact List.mem_append_right _ (List.mem_singleton_self _)

/-- The two invariants. -/
structure Sound (system : PhaseSystem) : Prop where
  announces : system.Announces
  follows : system.Follows

theorem sound_start (runId : String) : (start runId).Sound where
  announces := ⟨List.isChain_nil, by simp [start], by simp [start]⟩
  follows := ⟨by simp [start], by simp [start, ActiveIterationRegistry.start],
    by simp [start], by simp [start]⟩

theorem Sound.next (sound : system.Sound) (event : PhaseEvent) : (system.next event).Sound := by
  obtain ⟨announces, follows⟩ := sound
  cases event with
  | startPhase =>
    simp only [PhaseSystem.next]
    split
    · exact ⟨announces, follows⟩
    · rename_i notSearching
      have idle := announces.idle (by simpa using notSearching)
      refine ⟨⟨announces.print ?_, fun _ => by simp [iteration], by simp⟩, follows.active, follows.registered,
        follows.cancelled, follows.fresh⟩
      rintro last isLast started rfl
      exact absurd isLast (idle started)
  | endPhase =>
    simp only [PhaseSystem.next]
    split
    · rename_i searching
      have isStarted := announces.searching searching
      refine ⟨⟨announces.print ?_, by simp, by simp⟩, follows.active, follows.registered, follows.cancelled,
        follows.fresh⟩
      rintro last isLast started rfl
      rw [isStarted] at isLast
      cases isLast
      rfl
    · exact ⟨announces, follows⟩
  | send requestId =>
    simp only [PhaseSystem.next]
    split
    · rename_i isNew
      refine ⟨⟨announces.ordered, announces.searching, announces.idle⟩, follows.active, follows.registered,
        follows.cancelled, ?_⟩
      intro other inFlight
      by_cases same : other = requestId
      · subst same
        simpa using (Bool.and_eq_true_iff.mp isNew).2
      · rw [Dictionary.get?_insert_of_ne same] at inFlight
        exact follows.fresh other inFlight
    · exact ⟨announces, follows⟩
  | readLine =>
    simp only [PhaseSystem.next]
    split
    · exact ⟨announces, follows⟩
    · rename_i line stdout isStdout
      have samePrinted : system.linesRead ++ [line] ++ stdout = system.linesRead ++ system.stdout := by
        rw [isStdout, List.append_assoc]
        rfl
      refine ⟨⟨?_, ?_, ?_⟩, follows.readLine line stdout⟩
      · rw [samePrinted]
        exact announces.ordered
      · rw [samePrinted]
        exact announces.searching
      · rw [samePrinted]
        exact announces.idle
  | accept requestId =>
    simp only [PhaseSystem.next]
    split
    · rename_i inFlight
      exact ⟨⟨announces.ordered, announces.searching, announces.idle⟩, follows.acceptRequest inFlight⟩
    · exact ⟨announces, follows⟩
  | check requestId =>
    simp only [PhaseSystem.next]
    split
    · rename_i isHandler
      split
      · exact ⟨announces, follows⟩
      · exact ⟨⟨announces.ordered, announces.searching, announces.idle⟩, follows.setStage isHandler _⟩
    · exact ⟨announces, follows⟩
  | register requestId =>
    simp only [PhaseSystem.next]
    split
    · rename_i isHandler
      exact ⟨⟨announces.ordered, announces.searching, announces.idle⟩, follows.registerFuture isHandler⟩
    · exact ⟨announces, follows⟩
  | resume requestId =>
    simp only [PhaseSystem.next]
    split
    · rename_i isHandler
      exact ⟨⟨announces.ordered, announces.searching, announces.idle⟩, follows.resume isHandler⟩
    · exact ⟨announces, follows⟩
  | answer requestId =>
    simp only [PhaseSystem.next]
    split
    · rename_i isHandler
      exact ⟨⟨announces.ordered, announces.searching, announces.idle⟩, follows.setStage isHandler _⟩
    · exact ⟨announces, follows⟩

/-! ## Live requests -/

theorem Sound.isActive (sound : system.Sound) {iteration : ℤ}
    (started : .phaseStart iteration ∈ system.linesRead) (running : .phaseEnd iteration ∉ system.linesRead) :
    system.isActive iteration = true := by
  have active := sound.follows.active iteration (sound.announces.getLast?_of_started started running)
  simp [PhaseSystem.isActive, ActiveIterationRegistry.isActive, active]

/-- The handler of a request whose phase has started according to the lines read has refused it only if the
phase has ended. -/
structure Served (requestId : String) (iteration : ℤ) (system : PhaseSystem) : Prop where
  started : .phaseStart iteration ∈ system.linesRead
  handled : ∃ stage, system.handlers.get? requestId = some ⟨iteration, stage⟩ ∧
    (stage = .answered true → .phaseEnd iteration ∈ system.linesRead)

theorem served_acceptRequest (requestId : String) (sound : system.Sound) {iteration : ℤ}
    (started : .phaseStart iteration ∈ system.linesRead) :
    Served requestId iteration (system.acceptRequest requestId iteration) := by
  refine ⟨started, _, Dictionary.get?_insert_self _ _, ?_⟩
  intro refused
  by_contra running
  have active := sound.follows.active iteration (sound.announces.getLast?_of_started started running)
  simp [RegistryState.succeeds, ActiveIterationRegistry.acceptRequest, active] at refused

theorem Served.setStage {requestId : String} {iteration : ℤ} (served : Served requestId iteration system)
    {other : String} {handler : RequestHandler} (isHandler : system.handlers.get? other = some handler)
    {stage : RequestStage}
    (refuses : stage = .answered true → handler.iteration = iteration →
      .phaseEnd iteration ∈ system.linesRead) :
    Served requestId iteration (system.setStage other handler stage) := by
  obtain ⟨started, old, isOld, oldRefuses⟩ := served
  refine ⟨started, ?_⟩
  by_cases same : requestId = other
  · subst same
    rw [isHandler] at isOld
    cases isOld
    exact ⟨stage, Dictionary.get?_insert_self _ _, fun refused => refuses refused rfl⟩
  · exact ⟨old, (Dictionary.get?_insert_of_ne same _).trans isOld, oldRefuses⟩

theorem Served.next (sound : system.Sound) {requestId : String} {iteration : ℤ}
    (served : Served requestId iteration system) (event : PhaseEvent) :
    Served requestId iteration (system.next event) := by
  have runs : ∀ handler : RequestHandler, handler.iteration = iteration →
      system.isActive handler.iteration = false → .phaseEnd iteration ∈ system.linesRead := by
    rintro handler rfl inactive
    by_contra running
    rw [sound.isActive served.started running] at inactive
    cases inactive
  cases event with
  | startPhase | endPhase | send _ =>
    simp only [PhaseSystem.next]
    split
    · exact ⟨served.started, served.handled⟩
    · exact ⟨served.started, served.handled⟩
  | readLine =>
    simp only [PhaseSystem.next]
    split
    · exact served
    · obtain ⟨stage, isHandler, refuses⟩ := served.handled
      exact ⟨List.mem_append_left _ served.started, stage, isHandler,
        fun refused => List.mem_append_left _ (refuses refused)⟩
  | accept other =>
    simp only [PhaseSystem.next]
    split
    · rename_i inFlight
      obtain ⟨stage, isHandler, refuses⟩ := served.handled
      have different : requestId ≠ other := by
        rintro rfl
        rw [sound.follows.fresh requestId (by rw [inFlight]; rfl)] at isHandler
        cases isHandler
      exact ⟨served.started, stage, (Dictionary.get?_insert_of_ne different _).trans isHandler, refuses⟩
    · exact served
  | check other =>
    simp only [PhaseSystem.next]
    split
    · rename_i isHandler
      split
      · exact served
      · rename_i inactive
        exact served.setStage isHandler fun _ same => runs _ same (by simpa using inactive)
    · exact served
  | register other =>
    simp only [PhaseSystem.next]
    split
    · rename_i handled isHandler
      have called : Served requestId iteration { system with
          registry := system.registry.next
            (.registerFuture system.registry.registry.runId handled other other) } :=
        ⟨served.started, served.handled⟩
      apply called.setStage isHandler
      intro refused same
      apply runs _ same
      cases active : system.isActive handled with
      | false => rfl
      | true =>
        have isActive : system.registry.registry.activeIteration = some handled := by
          simpa [PhaseSystem.isActive, ActiveIterationRegistry.isActive] using active
        simp [RegistryState.succeeds, ActiveIterationRegistry.registerFuture, isActive] at refused
    · exact served
  | resume other =>
    simp only [PhaseSystem.next]
    split
    · rename_i handled isHandler
      have called : Served requestId iteration
          { system with registry := system.registry.next (.unregisterFuture other) } :=
        ⟨served.started, served.handled⟩
      apply called.setStage isHandler
      intro refused same
      split at refused
      · rename_i isAsked
        obtain ⟨handler, isHandler', ended⟩ := sound.follows.cancelled other isAsked
        rw [isHandler] at isHandler'
        cases isHandler'
        rwa [same] at ended
      · cases refused
    · exact served
  | answer other =>
    simp only [PhaseSystem.next]
    split
    · rename_i isHandler
      apply served.setStage isHandler
      intro refused same
      exact runs _ same (by simpa using refused)
    · exact served

end PhaseSystem

theorem sound_run (runId : String) (events : List PhaseEvent) : ((phaseMachine runId).run events).Sound :=
  (phaseMachine runId).run_invariant (PhaseSystem.sound_start runId) (fun _ event sound => sound.next event)
    events

theorem served_runFrom (runId : String) {system : PhaseSystem} (sound : system.Sound) {requestId : String}
    {iteration : ℤ} (served : system.Served requestId iteration) (events : List PhaseEvent) :
    ((phaseMachine runId).runFrom system events).Served requestId iteration := by
  induction events generalizing system with
  | nil => exact served
  | cons event events inductionHypothesis =>
    exact inductionHypothesis (sound.next event) (served.next sound event)

/-- A request that is handled after the start of its phase has been read is not answered `stale_iteration`
before the end of the phase has been read. -/
theorem live_request_not_stale (runId : String) (earlier later : List PhaseEvent) (requestId : String)
    (iteration : ℤ)
    (sent : ((phaseMachine runId).run earlier).inFlight.get? requestId = some iteration)
    (started : .phaseStart iteration ∈ ((phaseMachine runId).run earlier).linesRead)
    (running : .phaseEnd iteration ∉
      ((phaseMachine runId).run (earlier ++ .accept requestId :: later)).linesRead) :
    ((phaseMachine runId).run (earlier ++ .accept requestId :: later)).handlers.get? requestId ≠
      some ⟨iteration, .answered true⟩ := by
  have sound := sound_run runId earlier
  have accepted : ((phaseMachine runId).run earlier).next (.accept requestId) =
      ((phaseMachine runId).run earlier).acceptRequest requestId iteration := by
    simp only [PhaseSystem.next, sent]
  have served := PhaseSystem.served_acceptRequest requestId sound started
  rw [← accepted] at served
  obtain ⟨_, stage, isHandler, refuses⟩ := served_runFrom runId (sound.next _) served later
  rw [Machine.run, Machine.runFrom_append, Machine.runFrom_cons] at running ⊢
  intro stale
  have same := isHandler.symm.trans stale
  cases same
  exact running (refuses rfl)

theorem live_request_answered :
    ((phaseMachine "run").run ([.startPhase, .send "request", .readLine] ++ .accept "request" ::
      [.check "request", .register "request", .resume "request", .endPhase, .answer "request"])).handlers.get?
        "request" ≠ some ⟨1, .answered true⟩ :=
  live_request_not_stale "run" [.startPhase, .send "request", .readLine]
    [.check "request", .register "request", .resume "request", .endPhase, .answer "request"] "request" 1
    (by decide) (by decide) (by decide)

/-- A request is stale if it is handled after the end of its phase has been read, and if it overtakes the
start of its phase. -/
theorem sent_request_stale :
    ((phaseMachine "run").run [.startPhase, .send "request", .endPhase, .readLine, .readLine,
      .accept "request"]).handlers.get? "request" = some ⟨1, .answered true⟩ ∧
    ((phaseMachine "run").run [.startPhase, .endPhase, .startPhase, .send "request", .readLine, .readLine,
      .accept "request"]).handlers.get? "request" = some ⟨2, .answered true⟩ := by
  decide

end CutPlan.Controller
