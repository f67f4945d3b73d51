import CutPlan.Lib.RingWindow
import CutPlan.Search.DoubleArithmetic
import CutPlan.Search.LayerTable
import CutPlan.Search.RequestThrottle

/-! # Activity windows

What happens to the layer of an h value is a list of events, from which the openings and expansions of its latest
windows are counted.  The counters of the layer, with their shared ring, are compared with these counts.
-/

namespace CutPlan.Search

open CutPlan.Lib

inductive LayerEvent where
  | installed
  | opened
  | expanded
  | analysed
  | reset
  | requested
  deriving DecidableEq, Repr

namespace LayerEvent

/-- How often an event of a trace, whose newest event is first, took place in the window that is still open and in
every closed one, since the layer was installed or reset. -/
def windowCounts (counted : LayerEvent) : List LayerEvent → ℕ × List ℕ
  | [] | .installed :: _ | .reset :: _ => (0, [])
  | .analysed :: older => (0, (windowCounts counted older).1 :: (windowCounts counted older).2)
  | event :: older =>
    ((if event = counted then 1 else 0) + (windowCounts counted older).1, (windowCounts counted older).2)

/-- The count of the windows that the last analyses closed. -/
def recentCount (counted : LayerEvent) (windows : ℕ) (trace : List LayerEvent) : ℕ :=
  ((windowCounts counted trace).2.take windows).sum

def startsOver : LayerEvent → Bool
  | .installed | .reset | .requested => true
  | .opened | .expanded | .analysed => false

/-- The count since the last request, installation or reset. -/
def sinceRequestCount (counted : LayerEvent) (trace : List LayerEvent) : ℕ :=
  (trace.takeWhile fun event => !event.startsOver).count counted

end LayerEvent

/-! ## Counters -/

/-- What a layer counts of its openings, or of its expansions. -/
structure ActivityCounter where
  current : ℕ
  history : List ℕ
  recent : ℕ
  sinceRequest : ℕ

namespace ActivityCounter

def zero : ActivityCounter := ⟨0, List.replicate maxActivityWindows 0, 0, 0⟩

def increment (counter : ActivityCounter) : ActivityCounter :=
  { counter with current := counter.current + 1, sinceRequest := counter.sinceRequest + 1 }

def close (windows historyCursor : ℕ) (counter : ActivityCounter) : ActivityCounter :=
  let history := counter.history.set historyCursor counter.current
  { counter with current := 0, history := history, recent := (history.take windows).sum }

def request (counter : ActivityCounter) : ActivityCounter := { counter with sinceRequest := 0 }

/-- The counter has the counts of a trace. -/
structure Tracks (windows historyCursor : ℕ) (counted : LayerEvent) (counter : ActivityCounter)
    (trace : List LayerEvent) : Prop where
  current : counter.current = (LayerEvent.windowCounts counted trace).1
  history : KeepsNewest counter.history windows historyCursor (LayerEvent.windowCounts counted trace).2
  recent : counter.recent = LayerEvent.recentCount counted windows trace
  sinceRequest : counter.sinceRequest = LayerEvent.sinceRequestCount counted trace

variable {windows historyCursor : ℕ} {counted event : LayerEvent} {counter : ActivityCounter} {trace : List LayerEvent}

theorem tracks_zero (inRing : historyCursor < windows) (fits : windows ≤ maxActivityWindows)
    (fresh : event = .installed ∨ event = .reset) : Tracks windows historyCursor counted zero (event :: trace) := by
  obtain rfl | rfl := fresh
  all_goals exact ⟨rfl, .empty inRing fits, by simp [LayerEvent.recentCount, LayerEvent.windowCounts, zero],
    by simp [LayerEvent.sinceRequestCount, LayerEvent.startsOver, zero]⟩

def Activity (event : LayerEvent) : Prop := event = .opened ∨ event = .expanded

theorem windowCounts_activity (activity : Activity event) :
    LayerEvent.windowCounts counted (event :: trace) =
      ((if event = counted then 1 else 0) + (LayerEvent.windowCounts counted trace).1,
        (LayerEvent.windowCounts counted trace).2) := by
  obtain rfl | rfl := activity <;> rfl

theorem sinceRequestCount_activity (activity : Activity event) :
    LayerEvent.sinceRequestCount counted (event :: trace) =
      LayerEvent.sinceRequestCount counted trace + if event = counted then 1 else 0 := by
  obtain rfl | rfl := activity
  all_goals simp [LayerEvent.sinceRequestCount, LayerEvent.startsOver, List.count_cons]

theorem Tracks.increment (tracks : Tracks windows historyCursor counted counter trace) (activity : Activity counted) :
    Tracks windows historyCursor counted counter.increment (counted :: trace) := by
  obtain ⟨current, history, recent, sinceRequest⟩ := tracks
  constructor
  case current => simp [ActivityCounter.increment, windowCounts_activity activity, current, Nat.add_comm]
  case history => simpa only [ActivityCounter.increment, windowCounts_activity activity] using history
  case recent => simpa only [ActivityCounter.increment, LayerEvent.recentCount, windowCounts_activity activity] using recent
  case sinceRequest => simp [ActivityCounter.increment, sinceRequestCount_activity activity, sinceRequest]

/-- Openings do not change the counts of expansions, nor the other way round. -/
theorem Tracks.other (tracks : Tracks windows historyCursor counted counter trace) (activity : Activity event)
    (different : event ≠ counted) : Tracks windows historyCursor counted counter (event :: trace) := by
  obtain ⟨current, history, recent, sinceRequest⟩ := tracks
  constructor
  case current => simp [windowCounts_activity activity, current, different]
  case history => simpa only [windowCounts_activity activity] using history
  case recent => simpa only [LayerEvent.recentCount, windowCounts_activity activity] using recent
  case sinceRequest => simp [sinceRequestCount_activity activity, sinceRequest, different]

theorem Tracks.close (tracks : Tracks windows historyCursor counted counter trace) (activity : Activity counted) :
    Tracks windows ((historyCursor + 1) % windows) counted (counter.close windows historyCursor)
      (.analysed :: trace) := by
  obtain ⟨current, history, recent, sinceRequest⟩ := tracks
  have pushed := history.push counter.current
  constructor
  case current => rfl
  case history => rwa [LayerEvent.windowCounts, ← current]
  case recent =>
    rw [LayerEvent.recentCount, LayerEvent.windowCounts, ← current]
    exact pushed.sum_take
  case sinceRequest =>
    have notCounted : LayerEvent.analysed ≠ counted := by obtain rfl | rfl := activity <;> simp
    simp [ActivityCounter.close, sinceRequest, LayerEvent.sinceRequestCount, LayerEvent.startsOver, notCounted]

theorem Tracks.request (tracks : Tracks windows historyCursor counted counter trace) (activity : Activity counted) :
    Tracks windows historyCursor counted counter.request (.requested :: trace) := by
  obtain ⟨current, history, recent, sinceRequest⟩ := tracks
  have notCounted : LayerEvent.requested ≠ counted := by obtain rfl | rfl := activity <;> simp
  have counts : LayerEvent.windowCounts counted (.requested :: trace) = LayerEvent.windowCounts counted trace := by
    simp [LayerEvent.windowCounts, notCounted]
  constructor
  case current => rwa [counts]
  case history => rwa [counts]
  case recent => rwa [LayerEvent.recentCount, counts]
  case sinceRequest => simp [ActivityCounter.request, LayerEvent.sinceRequestCount, LayerEvent.startsOver]

end ActivityCounter

/-! ## The counters of a layer -/

namespace LayerStats

variable {S F : Type} (arithmetic : FloatArithmetic F) (config : TriggerConfig F) (layer : LayerStats S F)

def openedCounter : ActivityCounter :=
  ⟨layer.currentOpened, layer.openedHistory, layer.recentOpened, layer.openedSinceRequest⟩

def expandedCounter : ActivityCounter :=
  ⟨layer.currentExpanded, layer.expandedHistory, layer.recentExpanded, layer.expandedSinceRequest⟩

/-- The reset with which an analysis ends the episode of the layer, if it does. -/
def episodeReset (historyCursor : ℕ) : Option Bool :=
  let layer := layer.closeWindow config historyCursor
  if layer.isGrowing arithmetic config then none
  else
    let layer := { layer with growing := false, growthStreak := 0, calmStreak := layer.calmStreak + 1 }
    if config.layerResetWindows ≤ layer.inactiveStreak &&
        (layer.hasEpisodeState || 0 ≤ layer.lastRequestExpansion) then some true
    else if layer.hasEpisodeState && config.layerResetWindows ≤ layer.calmStreak then some false
    else none

/-- The counters follow the trace of the layer. -/
structure Follows (windows historyCursor : ℕ) (layer : LayerStats S F) (trace : List LayerEvent) : Prop where
  opened : layer.openedCounter.Tracks windows historyCursor .opened trace
  expanded : layer.expandedCounter.Tracks windows historyCursor .expanded trace

variable {arithmetic config layer} {windows historyCursor : ℕ} {trace : List LayerEvent}

/-- An analysis closes the window of the layer, and a reset clears its counters. -/
theorem updateWindow_counters (arithmetic : FloatArithmetic F) (config : TriggerConfig F) (layer : LayerStats S F)
    (historyCursor : ℕ) :
    ((layer.updateWindow arithmetic config historyCursor).openedCounter,
        (layer.updateWindow arithmetic config historyCursor).expandedCounter) =
      if (layer.episodeReset arithmetic config historyCursor).isSome then (.zero, .zero)
      else
        (layer.openedCounter.close config.activityWindows historyCursor,
          layer.expandedCounter.close config.activityWindows historyCursor) := by
  simp only [updateWindow, episodeReset]
  by_cases growing : (layer.closeWindow config historyCursor).isGrowing arithmetic config = true
  · rw [if_pos growing, if_pos growing]
    rfl
  · rw [if_neg growing, if_neg growing]
    split
    case isTrue => rfl
    case isFalse => split <;> rfl

theorem Follows.updateWindow (follows : layer.Follows config.activityWindows historyCursor trace)
    (inRange : config.activityWindows ≤ maxActivityWindows) :
    (layer.updateWindow arithmetic config historyCursor).Follows config.activityWindows
      ((historyCursor + 1) % config.activityWindows)
      ((if (layer.episodeReset arithmetic config historyCursor).isSome then [.reset] else []) ++ .analysed :: trace) := by
  have counters := updateWindow_counters arithmetic config layer historyCursor
  have positive : 0 < config.activityWindows := Nat.zero_lt_of_lt follows.opened.history.inRing
  have inRing : (historyCursor + 1) % config.activityWindows < config.activityWindows := Nat.mod_lt _ positive
  by_cases isReset : (layer.episodeReset arithmetic config historyCursor).isSome = true
  · rw [if_pos isReset, Prod.mk.injEq] at counters
    rw [if_pos isReset]
    constructor
    case opened => exact counters.1 ▸ ActivityCounter.tracks_zero inRing inRange (.inr rfl)
    case expanded => exact counters.2 ▸ ActivityCounter.tracks_zero inRing inRange (.inr rfl)
  · rw [if_neg isReset, Prod.mk.injEq] at counters
    rw [if_neg isReset]
    constructor
    case opened => exact counters.1 ▸ follows.opened.close (.inl rfl)
    case expanded => exact counters.2 ▸ follows.expanded.close (.inr rfl)

theorem follows_initializeLayer (monitor : TriggerMonitor S F) (key : ℤ) (h : F) (inRing : historyCursor < windows)
    (fits : windows ≤ maxActivityWindows) (trace : List LayerEvent) :
    (monitor.initializeLayer key h).Follows windows historyCursor (.installed :: trace) :=
  ⟨ActivityCounter.tracks_zero inRing fits (.inl rfl), ActivityCounter.tracks_zero inRing fits (.inl rfl)⟩

end LayerStats

/-! ## The traces of a monitor -/

namespace TriggerMonitor

variable {S F : Type} (arithmetic : FloatArithmetic F) (config : TriggerConfig F) (monitor : TriggerMonitor S F)

def holdsKey (key : ℤ) : Bool :=
  (List.finRange layerTableCapacity).any fun index => (monitor.layers index).any fun layer => layer.hKey = key

/-- An opening or expansion is an event of its layer, which is installed first if it is absent. -/
def observed (key : ℤ) (event : LayerEvent) (h : F) : List LayerEvent :=
  if quantizeH arithmetic config h = key then event :: if monitor.holdsKey key then [] else [.installed] else []

def resetsLayer (key : ℤ) : Bool :=
  (List.finRange layerTableCapacity).any fun index => (monitor.layers index).any fun layer =>
    layer.hKey = key && (layer.episodeReset arithmetic config monitor.historyCursor).isSome

def isLayerRequest (key : ℤ) : LogEntry S → Bool
  | .submitted ⟨_, .layer hKey _, _⟩ => hKey = key
  | _ => false

def requestCount (key : ℤ) : ℕ := monitor.log.countP (isLayerRequest key)

variable [DecidableEq S] (bridgeAccepts : ℕ → Bool)

/-- The events of a layer in an analysis. -/
def analysisEvents (key : ℤ) (stateId : S) : List LayerEvent :=
  (if (monitor.analyzeLayers arithmetic config bridgeAccepts stateId).requestCount key = monitor.requestCount key then []
    else [.requested]) ++
  (if monitor.resetsLayer arithmetic config key then [.reset] else []) ++ [.analysed]

/-- The events of a layer in one step, the newest first. -/
def layerEvents (key : ℤ) : MonitorEvent S F → List LayerEvent
  | .opened h =>
    if config.enabled && arithmetic.isFinite h && config.enableFrontierPlateau then
      monitor.observed arithmetic config key .opened h
    else []
  | .expanded stateId h =>
    if config.enabled && arithmetic.isFinite h then
      let recorded := (monitor.recordExpandedWithoutH config).recordLayerExpanded arithmetic config stateId h
      (if config.analysisInterval ≤ recorded.expansions - recorded.lastAnalysisExpansion then
        { recorded with lastAnalysisExpansion := recorded.expansions }.analysisEvents arithmetic config bridgeAccepts key
          stateId
      else []) ++
      (if config.enableFrontierPlateau then monitor.observed arithmetic config key .expanded h else [])
    else []
  | .expandedWithoutH | .checkAncestor _ _ | .polled _ => []

end TriggerMonitor

/-- A monitor with the traces of all layers. -/
structure TracedMonitor (S F : Type) where
  monitor : TriggerMonitor S F
  trace : ℤ → List LayerEvent

namespace TriggerMonitor

variable {S F : Type} [DecidableEq S] (arithmetic : FloatArithmetic F) (config : TriggerConfig F)
  (bridgeAccepts : ℕ → Bool)

def nextTraced (traced : TracedMonitor S F) (event : MonitorEvent S F) : TracedMonitor S F where
  monitor := traced.monitor.next arithmetic config bridgeAccepts event
  trace key := traced.monitor.layerEvents arithmetic config bridgeAccepts key event ++ traced.trace key

/-- The traces only watch the monitor. -/
def tracedMachine (initialState : S) (initialH : F) : Machine (TracedMonitor S F) (MonitorEvent S F) where
  start :=
    { monitor := afterInitial arithmetic config bridgeAccepts initialState initialH
      trace := fun key => (start arithmetic : TriggerMonitor S F).layerEvents arithmetic config bridgeAccepts key (.opened initialH) }
  next := nextTraced arithmetic config bridgeAccepts

theorem monitor_tracedMachine (initialState : S) (initialH : F) (events : List (MonitorEvent S F)) :
    ((tracedMachine arithmetic config bridgeAccepts initialState initialH).run events).monitor =
      (machine arithmetic config bridgeAccepts initialState initialH).run events := by
  induction events using List.reverseRecOn with
  | nil => rfl
  | append_singleton events event inductionHypothesis =>
    simp only [Machine.run, Machine.runFrom_append] at inductionHypothesis ⊢
    rw [← inductionHypothesis]
    rfl

end TriggerMonitor

/-! ## The counters follow the traces -/

namespace TriggerMonitor

variable {S F : Type} {arithmetic : FloatArithmetic F} {config : TriggerConfig F} {monitor monitor' : TriggerMonitor S F}
  {trace : ℤ → List LayerEvent}

structure FollowsTraces (config : TriggerConfig F) (monitor : TriggerMonitor S F) (trace : ℤ → List LayerEvent) :
    Prop where
  sound : monitor.SoundTable
  inRing : monitor.historyCursor < config.activityWindows
  layers : ∀ {index : Fin layerTableCapacity} {layer : LayerStats S F}, monitor.layers index = some layer →
    layer.Follows config.activityWindows monitor.historyCursor (trace layer.hKey)

theorem FollowsTraces.of_same (follows : FollowsTraces config monitor trace) (sameLayers : monitor'.layers = monitor.layers)
    (sameCursor : monitor'.historyCursor = monitor.historyCursor) : FollowsTraces config monitor' trace := by
  obtain ⟨sound, inRing, layers⟩ := follows
  constructor
  case sound => exact soundTable_of_layers sound sameLayers
  case inRing => rwa [sameCursor]
  case layers =>
    intro index layer isLayer
    rw [sameLayers] at isLayer
    rw [sameCursor]
    exact layers isLayer

theorem holdsKey_eq_false {key : ℤ} : monitor.holdsKey key = false ↔ monitor.Absent key := by
  simp only [holdsKey, Absent, ProbedTable.Absent, List.any_eq_false, List.mem_finRange, forall_const, Bool.not_eq_true]
  refine forall_congr' fun index => ?_
  cases monitor.layers index <;> simp

/-- What a step that records an event changes in the layer of the event. -/
structure Records (windows historyCursor : ℕ) (event : LayerEvent) (change : LayerStats S F → LayerStats S F) : Prop where
  keeps : ∀ layer, (change layer).hKey = layer.hKey
  follows : ∀ {layer : LayerStats S F} {trace : List LayerEvent}, layer.Follows windows historyCursor trace →
    (change layer).Follows windows historyCursor (event :: trace)

theorem FollowsTraces.changeLayer (follows : FollowsTraces config monitor trace)
    (inRange : config.activityWindows ≤ maxActivityWindows) {event : LayerEvent}
    {change : LayerStats S F → LayerStats S F}
    (records : Records config.activityWindows monitor.historyCursor event change) (h : F)
    (isChanged : monitor'.layers = (monitor.changeLayer arithmetic config h change).layers)
    (sameCursor : monitor'.historyCursor = monitor.historyCursor) :
    FollowsTraces config monitor' fun key => monitor.observed arithmetic config key event h ++ trace key := by
  constructor
  case sound =>
    rw [SoundTable, isChanged]
    exact follows.sound.changeLayer h records.keeps
  case inRing =>
    rw [sameCursor]
    exact follows.inRing
  case layers =>
    intro index layer isLayer
    simp only [isChanged, TriggerMonitor.changeLayer] at isLayer
    rw [sameCursor]
    generalize isKey : quantizeH arithmetic config h = key at isLayer
    by_cases isSlot : index = monitor.slotForKey key
    · rw [isSlot, Function.update_self, Option.some.injEq] at isLayer
      have hasKey : layer.hKey = key := by rw [← isLayer, records.keeps, hKey_layerForKey]
      rw [observed, if_pos (isKey.trans hasKey.symm), hasKey, ← isLayer]
      refine records.follows ?_
      cases holds : monitor.holdsKey key with
      | false =>
        rw [layerForKey_absent (holdsKey_eq_false.mp holds)]
        exact LayerStats.follows_initializeLayer monitor key h follows.inRing inRange (trace key)
      | true =>
        have present : ¬monitor.Absent key := fun absent => by simp [holdsKey_eq_false.mpr absent] at holds
        simp only [Absent, ProbedTable.Absent, not_forall, not_not] at present
        obtain ⟨slot, known, isKnown, rfl⟩ := present
        rw [follows.sound.layerForKey_eq isKnown]
        exact follows.layers isKnown
    · rw [Function.update_of_ne isSlot] at isLayer
      -- The key is in one slot only, which is not this one.
      have otherKey : quantizeH arithmetic config h ≠ layer.hKey := by
        intro sameKey
        rw [← isKey, sameKey] at isSlot
        exact isSlot (follows.sound.slotForKey_eq isLayer).symm
      rw [observed, if_neg otherKey]
      exact follows.layers isLayer

/-! ### Analyses -/

theorem resetsLayer_eq (sound : monitor.SoundTable) {index : Fin layerTableCapacity} {layer : LayerStats S F}
    (isLayer : monitor.layers index = some layer) :
    monitor.resetsLayer arithmetic config layer.hKey =
      (layer.episodeReset arithmetic config monitor.historyCursor).isSome := by
  rw [Bool.eq_iff_iff, resetsLayer, List.any_eq_true]
  constructor
  · rintro ⟨other, _, isReset⟩
    cases isOther : monitor.layers other with
    | none => simp [isOther] at isReset
    | some found =>
      simp only [isOther, Option.any_some, Bool.and_eq_true, decide_eq_true_eq] at isReset
      have same := ProbedTable.Sound.distinct sound isOther isLayer isReset.1
      rw [same, isLayer, Option.some.injEq] at isOther
      exact isOther ▸ isReset.2
  · intro isReset
    exact ⟨index, List.mem_finRange index, by simp [isLayer, isReset]⟩

variable (arithmetic) in
theorem FollowsTraces.closeWindows (follows : FollowsTraces config monitor trace)
    (inRange : config.activityWindows ≤ maxActivityWindows) :
    FollowsTraces config (monitor.closeWindows arithmetic config) fun key =>
      (if monitor.resetsLayer arithmetic config key then [.reset] else []) ++ .analysed :: trace key := by
  constructor
  case sound => exact follows.sound.of_keys sameKeys_closeWindows
  case inRing => exact Nat.mod_lt _ (Nat.zero_lt_of_lt follows.inRing)
  case layers =>
    intro index layer isLayer
    simp only [TriggerMonitor.closeWindows, Option.map_eq_some_iff] at isLayer
    obtain ⟨old, isOld, rfl⟩ := isLayer
    rw [hKey_updateWindow, resetsLayer_eq follows.sound isOld]
    exact (follows.layers isOld).updateWindow inRange

/-- Requests clear counters of the layers that are requested, and change no other counter. -/
structure Requests (monitor monitor' : TriggerMonitor S F) : Prop where
  historyCursor : monitor'.historyCursor = monitor.historyCursor
  grows : ∀ key, monitor.requestCount key ≤ monitor'.requestCount key
  layers : ∀ {index : Fin layerTableCapacity} {layer' : LayerStats S F}, monitor'.layers index = some layer' →
    ∃ layer, monitor.layers index = some layer ∧ layer.hKey = layer'.hKey ∧
      (layer'.openedCounter, layer'.expandedCounter) =
        if monitor'.requestCount layer.hKey = monitor.requestCount layer.hKey then
          (layer.openedCounter, layer.expandedCounter)
        else (layer.openedCounter.request, layer.expandedCounter.request)

theorem Requests.of_same (sameCursor : monitor'.historyCursor = monitor.historyCursor)
    (sameLayers : monitor'.layers = monitor.layers)
    (sameRequests : ∀ key, monitor'.requestCount key = monitor.requestCount key) : Requests monitor monitor' where
  historyCursor := sameCursor
  grows key := (sameRequests key).ge
  layers {_ layer'} isLayer := ⟨layer', sameLayers ▸ isLayer, rfl, by rw [if_pos (sameRequests _)]⟩

theorem Requests.trans {monitor'' : TriggerMonitor S F} (requests : Requests monitor monitor')
    (more : Requests monitor' monitor'') : Requests monitor monitor'' := by
  constructor
  case historyCursor => exact more.historyCursor.trans requests.historyCursor
  case grows => exact fun key => (requests.grows key).trans (more.grows key)
  case layers =>
    intro index last isLast
    obtain ⟨middle, isMiddle, sameKey, counters⟩ := more.layers isLast
    obtain ⟨layer, isLayer, key, middleCounters⟩ := requests.layers isMiddle
    refine ⟨layer, isLayer, key.trans sameKey, ?_⟩
    have first := requests.grows layer.hKey
    have second := more.grows layer.hKey
    rw [← key] at counters
    rw [counters]
    by_cases sameFirst : monitor'.requestCount layer.hKey = monitor.requestCount layer.hKey
    · rw [if_pos sameFirst, Prod.mk.injEq] at middleCounters
      rw [middleCounters.1, middleCounters.2, sameFirst]
    · rw [if_neg sameFirst, Prod.mk.injEq] at middleCounters
      rw [middleCounters.1, middleCounters.2, if_neg (by omega : ¬monitor''.requestCount layer.hKey =
        monitor.requestCount layer.hKey)]
      split <;> rfl

theorem FollowsTraces.requests (follows : FollowsTraces config monitor trace) (requests : Requests monitor monitor')
    (sound : monitor'.SoundTable) :
    FollowsTraces config monitor' fun key =>
      (if monitor'.requestCount key = monitor.requestCount key then [] else [.requested]) ++ trace key := by
  constructor
  case sound => exact sound
  case inRing =>
    rw [requests.historyCursor]
    exact follows.inRing
  case layers =>
    intro index layer' isLayer'
    obtain ⟨layer, isLayer, sameKey, counters⟩ := requests.layers isLayer'
    obtain ⟨opened, expanded⟩ := follows.layers isLayer
    rw [requests.historyCursor, ← sameKey]
    by_cases same : monitor'.requestCount layer.hKey = monitor.requestCount layer.hKey
    · rw [if_pos same, Prod.mk.injEq] at counters
      rw [if_pos same]
      exact ⟨counters.1 ▸ opened, counters.2 ▸ expanded⟩
    · rw [if_neg same, Prod.mk.injEq] at counters
      rw [if_neg same]
      exact ⟨counters.1 ▸ opened.request (.inl rfl), counters.2 ▸ expanded.request (.inr rfl)⟩

/-- The layer that was requested starts over, and the other ones stay as they are. -/
theorem requests_markRequested (sound : monitor.SoundTable) {index : Fin layerTableCapacity} {layer : LayerStats S F}
    (isLayer : monitor.layers index = some layer) (sameLayers : monitor'.layers = monitor.layers)
    (sameCursor : monitor'.historyCursor = monitor.historyCursor) {submission : Submission S} {globalStall : Bool}
    (ofLayer : submission.trigger = .layer layer.hKey globalStall)
    (logged : monitor'.log = .submitted submission :: monitor.log) : Requests monitor (monitor'.markRequested index) := by
  have counts : ∀ key, (monitor'.markRequested index).requestCount key =
      monitor.requestCount key + if layer.hKey = key then 1 else 0 := by
    intro key
    obtain ⟨stateId, trigger, expansions⟩ := submission
    simp only at ofLayer
    simp [requestCount, markRequested, logged, List.countP_cons, isLayerRequest, ofLayer]
  constructor
  case historyCursor => exact sameCursor
  case grows => exact fun key => by simp [counts]
  case layers =>
    intro other layer' isLayer'
    simp only [markRequested, sameLayers] at isLayer'
    by_cases isIndex : other = index
    · rw [isIndex, Function.update_self, isLayer, Option.map_some, Option.some.injEq] at isLayer'
      refine ⟨layer, isIndex ▸ isLayer, by rw [← isLayer'], ?_⟩
      rw [counts, if_pos rfl, if_neg (by omega), ← isLayer']
      rfl
    · rw [Function.update_of_ne isIndex] at isLayer'
      have otherKey : layer.hKey ≠ layer'.hKey := fun sameKey =>
        isIndex (ProbedTable.Sound.distinct sound isLayer isLayer' sameKey).symm
      refine ⟨layer', isLayer', rfl, ?_⟩
      rw [counts, if_neg otherKey, Nat.add_zero, if_pos rfl]

theorem requestCount_closeWindows (key : ℤ) :
    (monitor.closeWindows arithmetic config).requestCount key = monitor.requestCount key := by
  simp [requestCount, closeWindows, isLayerRequest]

end TriggerMonitor

/-! ### Requests -/

namespace TriggerMonitor

variable {S F : Type} [DecidableEq S] {arithmetic : FloatArithmetic F} {config : TriggerConfig F}
  {bridgeAccepts : ℕ → Bool} {monitor monitor' : TriggerMonitor S F} {trace : ℤ → List LayerEvent}

variable (config bridgeAccepts monitor) in
/-- A request either leaves the log as it is or is logged. -/
theorem requestState_log (stateId : S) (trigger : Trigger) (bypassSpacing : Bool) :
    (monitor.requestState config bridgeAccepts stateId trigger bypassSpacing).2.historyCursor = monitor.historyCursor ∧
      (monitor.requestState config bridgeAccepts stateId trigger bypassSpacing).2.log =
        if (monitor.requestState config bridgeAccepts stateId trigger bypassSpacing).1 then
          .submitted ⟨stateId, trigger, monitor.expansions⟩ :: monitor.log
        else monitor.log := by
  obtain same | ⟨same, _⟩ := requestState_cases config bridgeAccepts monitor stateId trigger bypassSpacing
  all_goals
    rw [same]
    exact ⟨rfl, rfl⟩

variable (config bridgeAccepts monitor) in
theorem requests_requestState (stateId : S) {trigger : Trigger} (notLayer : trigger.isLayer = false)
    (bypassSpacing : Bool) :
    Requests monitor (monitor.requestState config bridgeAccepts stateId trigger bypassSpacing).2 := by
  obtain ⟨cursor, log⟩ := requestState_log config bridgeAccepts monitor stateId trigger bypassSpacing
  refine .of_same cursor (layers_requestState config monitor bridgeAccepts stateId trigger bypassSpacing) fun key => ?_
  rw [requestCount, log, requestCount]
  split
  case isTrue =>
    cases trigger with
    | layer hKey globalStall => simp [Trigger.isLayer] at notLayer
    | initial | globalStall | ancestor => simp [isLayerRequest]
  case isFalse => rfl

variable (config bridgeAccepts) in
theorem requests_submitCandidates (includeGlobalStall : Bool) (candidates : List (Fin layerTableCapacity))
    (submitted : ℕ) (monitor : TriggerMonitor S F) (sound : monitor.SoundTable) :
    Requests monitor (submitCandidates config bridgeAccepts includeGlobalStall candidates submitted monitor).2 := by
  fun_induction submitCandidates config bridgeAccepts includeGlobalStall candidates submitted monitor with
  | case1 => exact .of_same rfl rfl fun _ => rfl
  | case2 index candidates submitted monitor _ _ inductionHypothesis => exact inductionHypothesis sound
  | case3 index candidates submitted monitor _ _ _ _ inductionHypothesis => exact inductionHypothesis sound
  | case4 index candidates submitted monitor _ layer isLayer stateId _ trigger requested isRequested
      inductionHypothesis =>
    have same := layers_requestState config monitor bridgeAccepts stateId
      trigger (decide (0 < submitted))
    obtain ⟨cursor, log⟩ := requestState_log config bridgeAccepts monitor stateId trigger (decide (0 < submitted))
    simp only [isRequested, if_true] at same cursor log
    have marked : Requests monitor (requested.markRequested index) :=
      requests_markRequested sound isLayer same cursor rfl log
    exact marked.trans (inductionHypothesis
      ((soundTable_of_layers sound same).of_keys (sameKeys_markRequested index)))
  | case5 index candidates submitted monitor _ layer isLayer stateId _ trigger requested isRequested
      inductionHypothesis =>
    have same := layers_requestState config monitor bridgeAccepts stateId
      trigger (decide (0 < submitted))
    obtain ⟨cursor, log⟩ := requestState_log config bridgeAccepts monitor stateId trigger (decide (0 < submitted))
    simp only [isRequested, Bool.false_eq_true, if_false] at same cursor log
    have refused : Requests monitor requested := .of_same cursor same fun key => by rw [requestCount, log, requestCount]
    exact refused.trans (inductionHypothesis (soundTable_of_layers sound same))
  | case6 => exact .of_same rfl rfl fun _ => rfl

variable (arithmetic config bridgeAccepts) in
theorem requests_submitLayerCandidates (sound : monitor.SoundTable) (includeGlobalStall : Bool) (fallbackState : S) :
    Requests monitor (monitor.submitLayerCandidates arithmetic config bridgeAccepts includeGlobalStall fallbackState) := by
  rw [submitLayerCandidates]
  split
  case isTrue => exact .of_same rfl rfl fun _ => rfl
  case isFalse =>
    generalize (monitor.collectLayerCandidates arithmetic config).take config.candidateLayers = candidates
    have ofLayers := requests_submitCandidates config bridgeAccepts includeGlobalStall
      candidates 0 monitor sound
    have fallback := requests_requestState config bridgeAccepts
      (submitCandidates config bridgeAccepts includeGlobalStall candidates 0 monitor).2 fallbackState
      (rfl : Trigger.globalStall.isLayer = false) false
    dsimp only
    split
    case isTrue =>
      generalize requestState config bridgeAccepts _ fallbackState .globalStall false = result at fallback ⊢
      obtain ⟨accepted, monitor'⟩ := result
      have both := ofLayers.trans fallback
      cases accepted <;> dsimp only <;> split <;> exact both.trans (.of_same rfl rfl fun _ => rfl)
    case isFalse => split <;> exact ofLayers.trans (.of_same rfl rfl fun _ => rfl)

variable (arithmetic bridgeAccepts) in
theorem FollowsTraces.analyzeLayers (follows : FollowsTraces config monitor trace)
    (inRange : config.activityWindows ≤ maxActivityWindows) (stateId : S) :
    FollowsTraces config (monitor.analyzeLayers arithmetic config bridgeAccepts stateId) fun key =>
      monitor.analysisEvents arithmetic config bridgeAccepts key stateId ++ trace key := by
  have closed := follows.closeWindows arithmetic inRange
  have submitted := closed.requests (requests_submitLayerCandidates arithmetic config bridgeAccepts closed.sound
      ((monitor.closeWindows arithmetic config).globalStallIsEligible config) stateId)
    (closed.sound.of_keys (sameKeys_submitLayerCandidates _ stateId))
  refine cast (congrArg _ (funext fun key => ?_)) submitted
  rw [analysisEvents, requestCount_closeWindows, List.append_assoc, List.append_assoc]
  rfl

/-! ## Runs -/

omit [DecidableEq S] in
theorem records_opened (windows historyCursor : ℕ) (expansions : ℤ) :
    Records windows historyCursor .opened (openLayer expansions : LayerStats S F → LayerStats S F) where
  keeps _ := rfl
  follows follows := ⟨follows.opened.increment (.inl rfl), follows.expanded.other (.inl rfl) (by simp)⟩

/-- What expanding a state changes in its layer. -/
def expandLayer (expansions : ℤ) (stateId : S) (h : F) (layer : LayerStats S F) : LayerStats S F :=
  { layer with
    currentExpanded := layer.currentExpanded + 1
    expandedSinceRequest := layer.expandedSinceRequest + 1
    h := h
    lastSeenExpansion := expansions
    representativeState := some stateId
    representativeExpansion := expansions }

omit [DecidableEq S] in
theorem records_expanded (windows historyCursor : ℕ) (expansions : ℤ) (stateId : S) (h : F) :
    Records windows historyCursor .expanded (expandLayer expansions stateId h) where
  keeps _ := rfl
  follows follows := ⟨follows.opened.other (.inr rfl) (by simp), follows.expanded.increment (.inr rfl)⟩

variable (arithmetic bridgeAccepts) in
theorem FollowsTraces.recordOpenState (follows : FollowsTraces config monitor trace)
    (inRange : config.activityWindows ≤ maxActivityWindows) (h : F) :
    FollowsTraces config (monitor.recordOpenState arithmetic config h) fun key =>
      monitor.layerEvents arithmetic config bridgeAccepts key (.opened h) ++ trace key := by
  have sameCursor : (monitor.recordOpenState arithmetic config h).historyCursor = monitor.historyCursor := by
    simp only [TriggerMonitor.recordOpenState]
    repeat' split
    all_goals rfl
  by_cases skipped : (!config.enabled || !arithmetic.isFinite h) = true
  · have noEvents : ∀ key, monitor.layerEvents arithmetic config bridgeAccepts key (.opened h) = [] := by
      intro key
      rw [layerEvents, if_neg]
      rw [Bool.or_eq_true, Bool.not_eq_true', Bool.not_eq_true'] at skipped
      obtain disabled | infinite := skipped <;> simp_all
    simp only [noEvents, List.nil_append]
    rw [TriggerMonitor.recordOpenState, if_pos skipped]
    exact follows
  · have sameLayers : (monitor.recordOpenState arithmetic config h).layers =
        if config.enableFrontierPlateau then (monitor.changeLayer arithmetic config h (openLayer monitor.expansions)).layers
        else monitor.layers := layers_recordOpenState skipped
    rw [Bool.or_eq_true, Bool.not_eq_true', Bool.not_eq_true', not_or, Bool.not_eq_false, Bool.not_eq_false] at skipped
    cases plateau : config.enableFrontierPlateau with
    | true =>
      simp only [plateau, if_true] at sameLayers
      simp only [layerEvents, skipped.1, skipped.2, plateau, Bool.and_self, if_true]
      exact follows.changeLayer inRange (records_opened _ _ _) h sameLayers sameCursor
    | false =>
      simp only [plateau, Bool.false_eq_true, if_false] at sameLayers
      simp only [layerEvents, plateau, Bool.and_false, Bool.false_eq_true, if_false, List.nil_append]
      exact follows.of_same sameLayers sameCursor

omit [DecidableEq S] in
variable (arithmetic) in
theorem FollowsTraces.recordLayerExpanded (follows : FollowsTraces config monitor trace)
    (inRange : config.activityWindows ≤ maxActivityWindows) (stateId : S) (h : F) :
    FollowsTraces config (monitor.recordLayerExpanded arithmetic config stateId h) fun key =>
      (if config.enableFrontierPlateau then monitor.observed arithmetic config key .expanded h else []) ++ trace key := by
  rw [TriggerMonitor.recordLayerExpanded]
  split
  case isTrue => exact follows.changeLayer inRange (records_expanded _ _ monitor.expansions stateId h) h rfl rfl
  case isFalse => exact follows

omit [DecidableEq S] in
variable (config monitor) in
theorem recordExpandedWithoutH_same :
    (monitor.recordExpandedWithoutH config).layers = monitor.layers ∧
      (monitor.recordExpandedWithoutH config).historyCursor = monitor.historyCursor := by
  rw [recordExpandedWithoutH]
  split <;> exact ⟨rfl, rfl⟩

omit [DecidableEq S] in
theorem observed_congr (sameLayers : monitor'.layers = monitor.layers) (key : ℤ) (event : LayerEvent) (h : F) :
    monitor'.observed arithmetic config key event h = monitor.observed arithmetic config key event h := by
  rw [observed, observed, holdsKey, holdsKey, sameLayers]

theorem FollowsTraces.recordExpanded (follows : FollowsTraces config monitor trace)
    (inRange : config.activityWindows ≤ maxActivityWindows) (stateId : S) (h : F) :
    FollowsTraces config (monitor.recordExpanded arithmetic config bridgeAccepts stateId h) fun key =>
      monitor.layerEvents arithmetic config bridgeAccepts key (.expanded stateId h) ++ trace key := by
  obtain ⟨sameLayers, sameCursor⟩ := recordExpandedWithoutH_same config monitor
  have counted := follows.of_same sameLayers sameCursor
  by_cases skipped : (!config.enabled || !arithmetic.isFinite h) = true
  · have noEvents : ∀ key, monitor.layerEvents arithmetic config bridgeAccepts key (.expanded stateId h) = [] := by
      intro key
      rw [layerEvents, if_neg]
      rw [Bool.or_eq_true, Bool.not_eq_true', Bool.not_eq_true'] at skipped
      obtain disabled | infinite := skipped <;> simp_all
    simp only [noEvents, List.nil_append]
    rw [TriggerMonitor.recordExpanded, if_pos skipped]
    exact counted
  · have recorded := counted.recordLayerExpanded arithmetic inRange stateId h
    rw [TriggerMonitor.recordExpanded, if_neg skipped]
    rw [Bool.or_eq_true, Bool.not_eq_true', Bool.not_eq_true', not_or, Bool.not_eq_false, Bool.not_eq_false] at skipped
    simp only [layerEvents, skipped.1, skipped.2, Bool.and_self, if_true]
    simp only [observed_congr sameLayers] at recorded
    generalize (monitor.recordExpandedWithoutH config).recordLayerExpanded arithmetic config stateId h = expanded
      at recorded ⊢
    split
    case isTrue =>
      have marked := @FollowsTraces.of_same _ _ _ _ { expanded with lastAnalysisExpansion := expanded.expansions } _ recorded
        rfl rfl
      have analysed := marked.analyzeLayers arithmetic bridgeAccepts inRange stateId
      simpa only [List.append_assoc] using analysed
    case isFalse => simpa only [List.nil_append] using recorded

theorem checkAncestor_historyCursor (stateId : S) (stagnant : Bool) :
    (monitor.checkAncestor config bridgeAccepts stateId stagnant).historyCursor = monitor.historyCursor := by
  have checked : (monitor.shouldCheckAncestor config).2.historyCursor = monitor.historyCursor := by
    rw [shouldCheckAncestor]
    repeat' split
    all_goals rfl
  rw [checkAncestor]
  generalize monitor.shouldCheckAncestor config = result at checked
  obtain ⟨checks, monitor'⟩ := result
  cases checks with
  | false => exact checked
  | true =>
    cases stagnant with
    | false => exact checked
    | true => exact (requestState_log config bridgeAccepts _ stateId .ancestor false).1.trans checked

theorem FollowsTraces.next (follows : FollowsTraces config monitor trace)
    (inRange : config.activityWindows ≤ maxActivityWindows) (event : MonitorEvent S F) :
    FollowsTraces config (monitor.next arithmetic config bridgeAccepts event) fun key =>
      monitor.layerEvents arithmetic config bridgeAccepts key event ++ trace key := by
  cases event with
  | opened h => exact follows.recordOpenState arithmetic bridgeAccepts inRange h
  | expanded stateId h => exact follows.recordExpanded inRange stateId h
  | expandedWithoutH => exact follows.of_same (recordExpandedWithoutH_same config _).1 (recordExpandedWithoutH_same config _).2
  | checkAncestor stateId stagnant =>
    exact follows.of_same (layers_checkAncestor stateId stagnant) (checkAncestor_historyCursor stateId stagnant)
  | polled responses =>
    refine follows.of_same (layers_pollBridge responses) ?_
    rw [TriggerMonitor.next, pollBridge]
    split <;> rfl

variable (arithmetic bridgeAccepts) in
theorem followsTraces_run (inRing : 1 ≤ config.activityWindows) (inRange : config.activityWindows ≤ maxActivityWindows)
    (initialState : S) (initialH : F) (events : List (MonitorEvent S F)) :
    let traced := (tracedMachine arithmetic config bridgeAccepts initialState initialH).run events
    FollowsTraces config traced.monitor traced.trace := by
  let invariant : TracedMonitor S F → Prop := fun traced => FollowsTraces config traced.monitor traced.trace
  suffices initially : invariant (tracedMachine arithmetic config bridgeAccepts initialState initialH).start from
    (tracedMachine arithmetic config bridgeAccepts initialState initialH).run_invariant initially
      (fun _ event follows => FollowsTraces.next follows inRange event) events
  have empty : FollowsTraces config (start arithmetic : TriggerMonitor S F) fun _ => [] :=
    ⟨soundTable_start, inRing, fun isLayer => by cases isLayer⟩
  have opened := empty.recordOpenState arithmetic bridgeAccepts inRange initialH
  simp only [List.append_nil] at opened
  simp only [invariant, tracedMachine, afterInitial, maybeRequestInitial]
  split
  case isTrue =>
    split
    case isTrue => exact opened
    case isFalse =>
      exact opened.of_same (layers_requestState config _ bridgeAccepts initialState .initial true)
        (requestState_log config bridgeAccepts _ initialState .initial true).1
  case isFalse => exact opened

/-- At all times the counters of a layer are those of its trace: its recent openings and expansions are those of the
windows that the last analyses closed since it was installed or reset, and its openings and expansions since the last
request are those since it was requested, installed or reset. -/
theorem activityWindows_exact (arithmetic : FloatArithmetic F) (config : TriggerConfig F) (bridgeAccepts : ℕ → Bool)
    (inRing : 1 ≤ config.activityWindows) (inRange : config.activityWindows ≤ maxActivityWindows)
    (initialState : S) (initialH : F) (events : List (MonitorEvent S F)) (index : Fin layerTableCapacity)
    (layer : LayerStats S F)
    (isLayer : ((machine arithmetic config bridgeAccepts initialState initialH).run events).layers index = some layer) :
    let trace := ((tracedMachine arithmetic config bridgeAccepts initialState initialH).run events).trace layer.hKey
    layer.recentOpened = LayerEvent.recentCount .opened config.activityWindows trace ∧
      layer.recentExpanded = LayerEvent.recentCount .expanded config.activityWindows trace ∧
      layer.openedSinceRequest = LayerEvent.sinceRequestCount .opened trace ∧
      layer.expandedSinceRequest = LayerEvent.sinceRequestCount .expanded trace := by
  have follows := followsTraces_run arithmetic bridgeAccepts inRing
    inRange initialState initialH events
  rw [← monitor_tracedMachine] at isLayer
  obtain ⟨opened, expanded⟩ := follows.layers isLayer
  exact ⟨opened.recent, expanded.recent, opened.sinceRequest, expanded.sinceRequest⟩

/-- Openings and expansions of two layers in turn. -/
def interleavedEvents : List (MonitorEvent ℕ Lib.ExtendedNumber) :=
  [.opened (.finite 3), .opened (.finite 2), .expanded 0 (.finite 3), .opened (.finite 3), .expanded 1 (.finite 2)]

theorem activityWindows_exact_interleaved :
    let trace := ((tracedMachine doubleArithmetic exampleConfig (fun _ => true) 0 (.finite 3)).run interleavedEvents).trace
    ∃ layer, ((machine doubleArithmetic exampleConfig (fun _ => true) 0 (.finite 3)).run interleavedEvents).layers 4 =
        some layer ∧
      layer.recentOpened = LayerEvent.recentCount .opened 2 (trace layer.hKey) ∧
      layer.recentExpanded = LayerEvent.recentCount .expanded 2 (trace layer.hKey) ∧
      layer.openedSinceRequest = LayerEvent.sinceRequestCount .opened (trace layer.hKey) ∧
      layer.expandedSinceRequest = LayerEvent.sinceRequestCount .expanded (trace layer.hKey) := by
  intro trace
  have installed : (((machine doubleArithmetic exampleConfig (fun _ => true) 0 (.finite 3)).run interleavedEvents).layers
      4).isSome = true := by decide +kernel
  obtain ⟨layer, isLayer⟩ := Option.isSome_iff_exists.mp installed
  exact ⟨layer, isLayer, activityWindows_exact doubleArithmetic exampleConfig _ (by decide) (by decide) 0 (.finite 3)
    interleavedEvents 4 layer isLayer⟩

end TriggerMonitor

end CutPlan.Search
