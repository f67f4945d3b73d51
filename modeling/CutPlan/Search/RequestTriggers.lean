import CutPlan.Lib.Machine
import Mathlib.Algebra.Group.Int.Defs
import Mathlib.Algebra.GroupWithZero.Nat
import Mathlib.Data.Finset.Card
import Mathlib.Data.Int.Notation
import Mathlib.Data.List.FinRange

/-! # Triggers of requests

`LLMTriggerMonitor`: the table of layers, the analysis of the layers and the three triggers.  States have
abstract identifiers and h values are floating-point numbers, of which only the operations are known.
-/

namespace CutPlan.Search

/-- The operations on floating-point numbers that the monitor uses. -/
structure FloatArithmetic (F : Type) where
  isFinite : F → Bool
  less : F → F → Bool
  add : F → F → F
  sub : F → F → F
  mul : F → F → F
  div : F → F → F
  fabs : F → F
  ofNat : ℕ → F
  llround : F → ℤ
  infinity : F
  thousandth : F

def FloatArithmetic.max {F : Type} (arithmetic : FloatArithmetic F) (first second : F) : F :=
  if arithmetic.less first second then second else first

/-- The settings, after the constructor has moved them into their ranges. -/
structure TriggerConfig (F : Type) where
  enabled : Bool
  requestInitial : Bool
  enableAncestorStagnation : Bool
  enableFrontierPlateau : Bool
  enableGlobalStall : Bool
  analysisInterval : ℤ
  analysisInterval_pos : 1 ≤ analysisInterval
  activityWindows : ℕ
  growthConfirmWindows : ℕ
  layerResetWindows : ℕ
  layerResetWindows_pos : 1 ≤ layerResetWindows
  layerMinRecentExpanded : ℕ
  layerMinRecentNetGrowth : ℕ
  layerMinSinceRequestExpanded : ℕ
  layerMinSinceRequestNetGrowth : ℕ
  stallExpansions : ℤ
  ancestorCheckInterval : ℤ
  minRequestGapExpansions : ℤ
  perLayerRequestGapExpansions : ℤ
  gaps : minRequestGapExpansions ≤ perLayerRequestGapExpansions
  candidateLayers : ℕ
  requestsPerSlot : ℕ
  maxPending : ℤ
  maxRequests : ℤ
  hAbsEpsilon : F
  hRelativeEpsilon : F
  plateauGrowthRatio : F
  expectsResponse : Bool

def maxActivityWindows : ℕ := 8

/-- The number of slots of the table. -/
abbrev layerTableCapacity : ℕ := 16

structure LayerStats (S F : Type) where
  hKey : ℤ
  h : F
  currentOpened : ℕ
  currentExpanded : ℕ
  openedHistory : List ℕ
  expandedHistory : List ℕ
  recentOpened : ℕ
  recentExpanded : ℕ
  openedSinceRequest : ℕ
  expandedSinceRequest : ℕ
  lastSeenExpansion : ℤ
  lastRequestExpansion : ℤ
  growthStreak : ℕ
  calmStreak : ℕ
  inactiveStreak : ℕ
  requestsInEpisode : ℕ
  growing : Bool
  ready : Bool
  representativeState : Option S
  representativeExpansion : ℤ

/-- Why a state is requested. -/
inductive Trigger where
  | initial
  | layer (hKey : ℤ) (globalStall : Bool)
  | globalStall
  | ancestor
  deriving DecidableEq, Repr

def Trigger.isLayer : Trigger → Bool
  | .layer _ _ => true
  | _ => false

structure Submission (S : Type) where
  stateId : S
  trigger : Trigger
  expansions : ℤ

/-- What the monitor sees and does. -/
inductive LogEntry (S : Type) where
  | opened (hKey : ℤ)
  | analysed
  | submitted (submission : Submission S)

/-- The newest entry of the log is its first. -/
structure TriggerMonitor (S F : Type) where
  pendingStates : Finset S
  requestedStates : Finset S
  expansions : ℤ
  expansionsSinceBestH : ℤ
  lastAnalysisExpansion : ℤ
  lastAncestorCheckExpansion : ℤ
  bestH : F
  globalStallRequested : Bool
  layers : Fin layerTableCapacity → Option (LayerStats S F)
  historyCursor : ℕ
  requestAttempts : ℕ
  requestsSubmitted : ℕ
  lastRequestExpansion : ℤ
  log : List (LogEntry S)

namespace TriggerMonitor

variable {S F : Type} [DecidableEq S] (arithmetic : FloatArithmetic F) (config : TriggerConfig F)
  (bridgeAccepts : ℕ → Bool)

def start : TriggerMonitor S F where
  pendingStates := ∅
  requestedStates := ∅
  expansions := 0
  expansionsSinceBestH := 0
  lastAnalysisExpansion := 0
  lastAncestorCheckExpansion := 0
  bestH := arithmetic.infinity
  globalStallRequested := false
  layers := fun _ => none
  historyCursor := 0
  requestAttempts := 0
  requestsSubmitted := 0
  lastRequestExpansion := -1
  log := []

variable (monitor : TriggerMonitor S F)

/-! ## Limits -/

def reachedPendingLimit : Bool :=
  0 < config.maxPending && config.maxPending ≤ (monitor.pendingStates.card : ℤ)

def reachedRequestLimit : Bool := 0 < config.maxRequests && config.maxRequests ≤ monitor.requestsSubmitted

def requestSpacingActive : Bool :=
  0 ≤ monitor.lastRequestExpansion &&
    monitor.expansions - monitor.lastRequestExpansion < config.minRequestGapExpansions

def hImprovementThreshold (referenceH currentH : F) : F :=
  if !arithmetic.isFinite referenceH || !arithmetic.isFinite currentH then config.hAbsEpsilon
  else
    let scale := arithmetic.max (arithmetic.fabs referenceH) (arithmetic.fabs currentH)
    arithmetic.max config.hAbsEpsilon (arithmetic.mul config.hRelativeEpsilon scale)

def meaningfullyImprovesH (referenceH currentH : F) : Bool :=
  !arithmetic.isFinite referenceH ||
    arithmetic.less (hImprovementThreshold arithmetic config referenceH currentH) (arithmetic.sub referenceH currentH)

def countAttempt : TriggerMonitor S F := { monitor with requestAttempts := monitor.requestAttempts + 1 }

def submit (stateId : S) (trigger : Trigger) : TriggerMonitor S F :=
  { monitor with
    requestsSubmitted := monitor.requestsSubmitted + 1
    lastRequestExpansion := monitor.expansions
    requestedStates := insert stateId monitor.requestedStates
    pendingStates :=
      if config.expectsResponse then insert stateId monitor.pendingStates else monitor.pendingStates
    log := .submitted ⟨stateId, trigger, monitor.expansions⟩ :: monitor.log }

/-- The result says whether the request was submitted.  The bridge answers each attempt. -/
def requestState (stateId : S) (trigger : Trigger) (bypassSpacing : Bool) : Bool × TriggerMonitor S F :=
  if !config.enabled then (false, monitor.countAttempt)
  else if monitor.reachedRequestLimit config then (false, monitor.countAttempt)
  else if !bypassSpacing && monitor.requestSpacingActive config then (false, monitor.countAttempt)
  else if stateId ∈ monitor.requestedStates then (false, monitor.countAttempt)
  else if monitor.reachedPendingLimit config then (false, monitor.countAttempt)
  else if !bridgeAccepts monitor.requestAttempts then (false, monitor.countAttempt)
  else (true, monitor.countAttempt.submit config stateId trigger)

/-! ## The table of layers -/

def hBucketWidth : F := arithmetic.max config.hAbsEpsilon arithmetic.thousandth

def quantizeH (h : F) : ℤ := arithmetic.llround (arithmetic.div h (hBucketWidth arithmetic config))

def hashHKey (key : ℤ) : Fin layerTableCapacity :=
  let value := UInt64.ofNat (key % 2 ^ 64).toNat
  let value := value ^^^ (value >>> 33)
  let value := value * 0xff51afd7ed558ccd
  let value := value ^^^ (value >>> 33)
  Fin.ofNat layerTableCapacity value.toNat

def initializeLayer (key : ℤ) (h : F) : LayerStats S F where
  hKey := key
  h := h
  currentOpened := 0
  currentExpanded := 0
  openedHistory := List.replicate maxActivityWindows 0
  expandedHistory := List.replicate maxActivityWindows 0
  recentOpened := 0
  recentExpanded := 0
  openedSinceRequest := 0
  expandedSinceRequest := 0
  lastSeenExpansion := monitor.expansions
  lastRequestExpansion := -1
  growthStreak := 0
  calmStreak := 0
  inactiveStreak := 0
  requestsInEpisode := 0
  growing := false
  ready := false
  representativeState := none
  representativeExpansion := -1

/-- The first slot, from the hash on, that has the key or is free. -/
def findSlot (key : ℤ) : Option (Fin layerTableCapacity) :=
  ((List.finRange layerTableCapacity).map (hashHKey key + ·)).find? fun index =>
    match monitor.layers index with
    | some layer => layer.hKey = key
    | none => true

def lastSeen (index : Fin layerTableCapacity) : ℤ :=
  (monitor.layers index).elim (-1) LayerStats.lastSeenExpansion

/-- The stalest bucket. -/
def victim : Fin layerTableCapacity :=
  (List.finRange layerTableCapacity).foldl
    (fun victim index => if monitor.lastSeen index < monitor.lastSeen victim then index else victim) 0

/-- Without a slot for the key, the stalest bucket is replaced. -/
def slotForKey (key : ℤ) : Fin layerTableCapacity := (monitor.findSlot key).getD monitor.victim

def layerForKey (key : ℤ) (h : F) : LayerStats S F :=
  match monitor.layers (monitor.slotForKey key) with
  | some layer => if layer.hKey = key then layer else monitor.initializeLayer key h
  | none => monitor.initializeLayer key h

/-- The layer for an h value is found or made, and changed. -/
def changeLayer (h : F) (change : LayerStats S F → LayerStats S F) : TriggerMonitor S F :=
  let key := quantizeH arithmetic config h
  { monitor with
    layers := Function.update monitor.layers (monitor.slotForKey key) (some (change (monitor.layerForKey key h))) }

end TriggerMonitor

/-! ## Layers -/

namespace LayerStats

variable {S F : Type} [DecidableEq S] (arithmetic : FloatArithmetic F) (config : TriggerConfig F)
  (layer : LayerStats S F)

def netGrowth : ℕ := layer.recentOpened - layer.recentExpanded

def growthRatio : F :=
  if layer.recentExpanded = 0 then arithmetic.ofNat 0
  else arithmetic.div (arithmetic.ofNat layer.recentOpened) (arithmetic.ofNat layer.recentExpanded)

def sinceRequestNetGrowth : ℕ := layer.openedSinceRequest - layer.expandedSinceRequest

def resetEpisode (resetCooldown : Bool) : LayerStats S F :=
  { layer with
    openedHistory := List.replicate maxActivityWindows 0
    expandedHistory := List.replicate maxActivityWindows 0
    recentOpened := 0
    recentExpanded := 0
    openedSinceRequest := 0
    expandedSinceRequest := 0
    lastRequestExpansion := if resetCooldown then -1 else layer.lastRequestExpansion
    growthStreak := 0
    calmStreak := 0
    inactiveStreak := 0
    requestsInEpisode := 0
    growing := false
    ready := false
    representativeState := none
    representativeExpansion := -1 }

/-- The window is added to the history. -/
def closeWindow (historyCursor : ℕ) : LayerStats S F :=
  let openedHistory := layer.openedHistory.set historyCursor layer.currentOpened
  let expandedHistory := layer.expandedHistory.set historyCursor layer.currentExpanded
  { layer with
    openedHistory := openedHistory
    expandedHistory := expandedHistory
    currentOpened := 0
    currentExpanded := 0
    inactiveStreak := if layer.currentOpened = 0 then layer.inactiveStreak + 1 else 0
    recentOpened := (openedHistory.take config.activityWindows).sum
    recentExpanded := (expandedHistory.take config.activityWindows).sum }

def isGrowing : Bool :=
  config.enableFrontierPlateau && (config.layerMinRecentExpanded ≤ layer.recentExpanded &&
    config.layerMinRecentNetGrowth ≤ layer.netGrowth) &&
    !arithmetic.less (layer.growthRatio arithmetic) config.plateauGrowthRatio

def hasEpisodeState : Bool :=
  layer.ready || 0 < layer.requestsInEpisode || 0 < layer.openedSinceRequest || 0 < layer.expandedSinceRequest

def updateWindow (historyCursor : ℕ) : LayerStats S F :=
  let layer := layer.closeWindow config historyCursor
  if layer.isGrowing arithmetic config then
    { layer with
      growing := true
      growthStreak := layer.growthStreak + 1
      calmStreak := 0
      ready := layer.ready || config.growthConfirmWindows ≤ layer.growthStreak + 1 }
  else
    let layer := { layer with growing := false, growthStreak := 0, calmStreak := layer.calmStreak + 1 }
    if config.layerResetWindows ≤ layer.inactiveStreak &&
        (layer.hasEpisodeState || 0 ≤ layer.lastRequestExpansion) then layer.resetEpisode true
    else if layer.hasEpisodeState && config.layerResetWindows ≤ layer.calmStreak then layer.resetEpisode false
    else layer

def hasNewEvidence : Bool :=
  config.layerMinSinceRequestExpanded ≤ layer.expandedSinceRequest &&
    config.layerMinSinceRequestNetGrowth ≤ layer.sinceRequestNetGrowth

/-- The state that is requested for a layer that is eligible. -/
def eligibleState (expansions : ℤ) (requestedStates : Finset S) : Option S :=
  if config.enableFrontierPlateau && layer.ready && layer.growing then
    match layer.representativeState with
    | none => none
    | some stateId =>
      if stateId ∉ requestedStates && layer.hasNewEvidence config &&
          !(0 ≤ layer.lastRequestExpansion &&
            expansions - layer.lastRequestExpansion < config.perLayerRequestGapExpansions) &&
          layer.lastRequestExpansion < layer.representativeExpansion then some stateId
      else none
  else none

def priorityBetter (lhs rhs : LayerStats S F) : Bool :=
  if lhs.netGrowth ≠ rhs.netGrowth then rhs.netGrowth < lhs.netGrowth
  else if lhs.recentOpened + lhs.recentExpanded ≠ rhs.recentOpened + rhs.recentExpanded then
    rhs.recentOpened + rhs.recentExpanded < lhs.recentOpened + lhs.recentExpanded
  else if lhs.lastRequestExpansion ≠ rhs.lastRequestExpansion then
    lhs.lastRequestExpansion < rhs.lastRequestExpansion
  else arithmetic.less lhs.h rhs.h

end LayerStats

/-! ## The analysis -/

namespace TriggerMonitor

variable {S F : Type} [DecidableEq S] (arithmetic : FloatArithmetic F) (config : TriggerConfig F)
  (bridgeAccepts : ℕ → Bool) (monitor : TriggerMonitor S F)

def eligibleState (index : Fin layerTableCapacity) : Option S :=
  (monitor.layers index).bind fun layer =>
    layer.eligibleState config monitor.expansions monitor.requestedStates

def hasEligibleLayerCandidate : Bool :=
  (List.finRange layerTableCapacity).any fun index => (monitor.eligibleState config index).isSome

def slotBetter (lhs rhs : Fin layerTableCapacity) : Bool :=
  match monitor.layers lhs, monitor.layers rhs with
  | some lhs, some rhs => lhs.priorityBetter arithmetic rhs
  | _, _ => false

def collectLayerCandidates : List (Fin layerTableCapacity) :=
  ((List.finRange layerTableCapacity).filter fun index => (monitor.eligibleState config index).isSome).mergeSort
    fun lhs rhs => !monitor.slotBetter arithmetic rhs lhs

def globalStallReached : Bool :=
  config.enableGlobalStall && 0 < config.stallExpansions && config.stallExpansions ≤ monitor.expansionsSinceBestH

def globalStallIsEligible : Bool := monitor.globalStallReached config && !monitor.globalStallRequested

def markRequested (index : Fin layerTableCapacity) : TriggerMonitor S F :=
  { monitor with
    layers := Function.update monitor.layers index ((monitor.layers index).map fun layer =>
      { layer with
        requestsInEpisode := layer.requestsInEpisode + 1
        lastRequestExpansion := monitor.expansions
        openedSinceRequest := 0
        expandedSinceRequest := 0 }) }

/-- The loop over the candidates, with the number of requests submitted so far. -/
def submitCandidates (includeGlobalStall : Bool) :
    List (Fin layerTableCapacity) → ℕ → TriggerMonitor S F → ℕ × TriggerMonitor S F
  | [], submitted, monitor => (submitted, monitor)
  | index :: candidates, submitted, monitor =>
    if submitted < config.requestsPerSlot then
      match monitor.layers index with
      | none => submitCandidates includeGlobalStall candidates submitted monitor
      | some layer =>
        match layer.representativeState with
        | none => submitCandidates includeGlobalStall candidates submitted monitor
        | some stateId =>
          let trigger := Trigger.layer layer.hKey (includeGlobalStall && submitted = 0)
          match monitor.requestState config bridgeAccepts stateId trigger (0 < submitted) with
          | (true, monitor) =>
            submitCandidates includeGlobalStall candidates (submitted + 1) (monitor.markRequested index)
          | (false, monitor) => submitCandidates includeGlobalStall candidates submitted monitor
    else (submitted, monitor)

def submitLayerCandidates (includeGlobalStall : Bool) (fallbackState : S) : TriggerMonitor S F :=
  if monitor.reachedRequestLimit config || monitor.requestSpacingActive config then monitor
  else
    let candidates := (monitor.collectLayerCandidates arithmetic config).take config.candidateLayers
    let (submitted, monitor) := submitCandidates config bridgeAccepts includeGlobalStall candidates 0 monitor
    let (submitted, monitor) :=
      if includeGlobalStall && submitted = 0 then
        match monitor.requestState config bridgeAccepts fallbackState .globalStall false with
        | (true, monitor) => (1, monitor)
        | (false, monitor) => (0, monitor)
      else (submitted, monitor)
    if includeGlobalStall && 0 < submitted then { monitor with globalStallRequested := true } else monitor

/-- The windows of all layers are closed. -/
def closeWindows : TriggerMonitor S F :=
  { monitor with
    layers := fun index => (monitor.layers index).map fun layer =>
      layer.updateWindow arithmetic config monitor.historyCursor
    historyCursor := (monitor.historyCursor + 1) % config.activityWindows
    log := .analysed :: monitor.log }

def analyzeLayers (stateId : S) : TriggerMonitor S F :=
  let monitor := monitor.closeWindows arithmetic config
  monitor.submitLayerCandidates arithmetic config bridgeAccepts (monitor.globalStallIsEligible config) stateId

/-! ## Events -/

def maybeRequestInitial (stateId : S) : TriggerMonitor S F :=
  if !config.requestInitial then monitor
  else (monitor.requestState config bridgeAccepts stateId .initial true).2

def recordOpenState (h : F) : TriggerMonitor S F :=
  if !config.enabled || !arithmetic.isFinite h then monitor
  else
    let monitor := { monitor with log := .opened (quantizeH arithmetic config h) :: monitor.log }
    let monitor :=
      if config.enableFrontierPlateau then
        monitor.changeLayer arithmetic config h fun layer =>
          { layer with
            currentOpened := layer.currentOpened + 1
            openedSinceRequest := layer.openedSinceRequest + 1
            lastSeenExpansion := monitor.expansions }
      else monitor
    if meaningfullyImprovesH arithmetic config monitor.bestH h then
      { monitor with
        bestH := h
        expansionsSinceBestH := 0
        globalStallRequested := false }
    else monitor

def recordExpandedWithoutH : TriggerMonitor S F :=
  if !config.enabled then monitor
  else
    { monitor with
      expansions := monitor.expansions + 1
      expansionsSinceBestH := monitor.expansionsSinceBestH + 1 }

/-- The expanded state represents its layer. -/
def recordLayerExpanded (stateId : S) (h : F) : TriggerMonitor S F :=
  if config.enableFrontierPlateau then
    monitor.changeLayer arithmetic config h fun layer =>
      { layer with
        currentExpanded := layer.currentExpanded + 1
        expandedSinceRequest := layer.expandedSinceRequest + 1
        h := h
        lastSeenExpansion := monitor.expansions
        representativeState := some stateId
        representativeExpansion := monitor.expansions }
  else monitor

def recordExpanded (stateId : S) (h : F) : TriggerMonitor S F :=
  let counted := monitor.recordExpandedWithoutH config
  if !config.enabled || !arithmetic.isFinite h then counted
  else
    let monitor := counted.recordLayerExpanded arithmetic config stateId h
    if config.analysisInterval ≤ monitor.expansions - monitor.lastAnalysisExpansion then
      let monitor := { monitor with lastAnalysisExpansion := monitor.expansions }
      monitor.analyzeLayers arithmetic config bridgeAccepts stateId
    else monitor

def shouldCheckAncestor : Bool × TriggerMonitor S F :=
  if !config.enabled || !config.enableAncestorStagnation then (false, monitor)
  else if monitor.reachedRequestLimit config then (false, monitor)
  else if monitor.requestSpacingActive config then (false, monitor)
  else if monitor.expansions - monitor.lastAncestorCheckExpansion < config.ancestorCheckInterval then
    (false, monitor)
  else
    let monitor := { monitor with lastAncestorCheckExpansion := monitor.expansions }
    (!(monitor.hasEligibleLayerCandidate config || monitor.globalStallIsEligible config), monitor)

def requestAncestor (stateId : S) : TriggerMonitor S F :=
  (monitor.requestState config bridgeAccepts stateId .ancestor false).2

/-- The check of the ancestors of an expanded state, which may find that they are stagnant. -/
def checkAncestor (stateId : S) (stagnant : Bool) : TriggerMonitor S F :=
  match monitor.shouldCheckAncestor config with
  | (true, monitor) => if stagnant then monitor.requestAncestor config bridgeAccepts stateId else monitor
  | (false, monitor) => monitor

def pollBridge (responses : List S) : TriggerMonitor S F :=
  if !config.enabled then monitor
  else
    { monitor with
      pendingStates := responses.foldl (fun pendingStates stateId => pendingStates.erase stateId) monitor.pendingStates }

end TriggerMonitor

inductive MonitorEvent (S F : Type) where
  | opened (h : F)
  | expanded (stateId : S) (h : F)
  | expandedWithoutH
  | checkAncestor (stateId : S) (stagnant : Bool)
  | polled (responses : List S)

namespace TriggerMonitor

variable {S F : Type} [DecidableEq S] (arithmetic : FloatArithmetic F) (config : TriggerConfig F)
  (bridgeAccepts : ℕ → Bool)

def next (monitor : TriggerMonitor S F) : MonitorEvent S F → TriggerMonitor S F
  | .opened h => monitor.recordOpenState arithmetic config h
  | .expanded stateId h => monitor.recordExpanded arithmetic config bridgeAccepts stateId h
  | .expandedWithoutH => monitor.recordExpandedWithoutH config
  | .checkAncestor stateId stagnant => monitor.checkAncestor config bridgeAccepts stateId stagnant
  | .polled responses => monitor.pollBridge config responses

/-- The monitor when the search starts from an initial state that is no dead end. -/
def afterInitial (initialState : S) (initialH : F) : TriggerMonitor S F :=
  let monitor := (start arithmetic).recordOpenState arithmetic config initialH
  if config.enabled then monitor.maybeRequestInitial config bridgeAccepts initialState else monitor

def machine (initialState : S) (initialH : F) : Lib.Machine (TriggerMonitor S F) (MonitorEvent S F) where
  start := afterInitial arithmetic config bridgeAccepts initialState initialH
  next := next arithmetic config bridgeAccepts

end TriggerMonitor

end CutPlan.Search
