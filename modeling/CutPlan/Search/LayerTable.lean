import CutPlan.Lib.ProbedTable
import CutPlan.Search.RequestTriggers

/-! # The table of layers

The table of `LLMTriggerMonitor` is a table with linear probing that replaces the bucket seen least recently once all
its slots are occupied.
-/

namespace CutPlan.Search.TriggerMonitor

open CutPlan.Lib

variable {S F : Type} {arithmetic : FloatArithmetic F} {config : TriggerConfig F} {monitor monitor' : TriggerMonitor S F}

def SoundTable (monitor : TriggerMonitor S F) : Prop :=
  ProbedTable.Sound LayerStats.hKey hashHKey monitor.layers

/-- No bucket has the key. -/
def Absent (monitor : TriggerMonitor S F) (key : ℤ) : Prop := ProbedTable.Absent LayerStats.hKey monitor.layers key

theorem findSlot_eq (monitor : TriggerMonitor S F) (key : ℤ) :
    monitor.findSlot key = ProbedTable.findSlot LayerStats.hKey hashHKey monitor.layers key := by
  simp only [findSlot, ProbedTable.findSlot, ProbedTable.probes]
  congr 1
  funext index
  rw [ProbedTable.stops]
  cases monitor.layers index <;> rfl

theorem soundTable_start : SoundTable (start arithmetic : TriggerMonitor S F) := ProbedTable.sound_empty

/-! ## Where a key is -/

theorem SoundTable.slotForKey_eq (sound : monitor.SoundTable) {index : Fin layerTableCapacity} {layer : LayerStats S F}
    (isLayer : monitor.layers index = some layer) : monitor.slotForKey layer.hKey = index := by
  rw [slotForKey, findSlot_eq, sound.findSlot_eq isLayer]
  rfl

theorem SoundTable.layerForKey_eq (sound : monitor.SoundTable) {index : Fin layerTableCapacity} {layer : LayerStats S F}
    (isLayer : monitor.layers index = some layer) (h : F) : monitor.layerForKey layer.hKey h = layer := by
  simp [layerForKey, sound.slotForKey_eq isLayer, isLayer]

theorem layerForKey_absent {key : ℤ} (absent : monitor.Absent key) (h : F) :
    monitor.layerForKey key h = monitor.initializeLayer key h := by
  rw [layerForKey]
  cases isLayer : monitor.layers (monitor.slotForKey key) with
  | none => rfl
  | some layer => exact if_neg (absent _ layer isLayer)

theorem hKey_layerForKey (monitor : TriggerMonitor S F) (key : ℤ) (h : F) : (monitor.layerForKey key h).hKey = key := by
  rw [layerForKey]
  split
  · split
    · assumption
    · rfl
  · rfl

theorem lastSeen_foldl_le (indices : List (Fin layerTableCapacity)) (first : Fin layerTableCapacity) :
    ∀ index ∈ first :: indices, monitor.lastSeen (indices.foldl
      (fun victim index => if monitor.lastSeen index < monitor.lastSeen victim then index else victim) first) ≤
        monitor.lastSeen index := by
  induction indices generalizing first with
  | nil => simp
  | cons next indices inductionHypothesis =>
    intro index isIndex
    rw [List.foldl_cons]
    generalize isChosen : (if monitor.lastSeen next < monitor.lastSeen first then next else first) = chosen
    have least := inductionHypothesis chosen
    have below := least chosen List.mem_cons_self
    have chosenLe : monitor.lastSeen chosen ≤ monitor.lastSeen first ∧ monitor.lastSeen chosen ≤ monitor.lastSeen next := by
      rw [← isChosen]
      split <;> omega
    rcases List.mem_cons.mp isIndex with rfl | isLater
    · omega
    rcases List.mem_cons.mp isLater with rfl | isLater
    · omega
    · exact least index (List.mem_cons_of_mem _ isLater)

theorem lastSeen_victim_le (monitor : TriggerMonitor S F) (index : Fin layerTableCapacity) :
    monitor.lastSeen monitor.victim ≤ monitor.lastSeen index :=
  lastSeen_foldl_le (List.finRange layerTableCapacity) 0 index (List.mem_cons_of_mem _ (List.mem_finRange index))

/-- A key that is absent gets a free slot, or the one seen least recently if there is none. -/
theorem slotForKey_absent {key : ℤ} (absent : monitor.Absent key) :
    monitor.layers (monitor.slotForKey key) = none ∨
      ProbedTable.Full monitor.layers ∧ ∀ index, monitor.lastSeen (monitor.slotForKey key) ≤ monitor.lastSeen index := by
  rw [slotForKey, findSlot_eq]
  cases found : ProbedTable.findSlot LayerStats.hKey hashHKey monitor.layers key with
  | some index => exact .inl (ProbedTable.findSlot_absent absent found).1
  | none =>
    rw [Option.getD_none]
    exact .inr ⟨ProbedTable.full_of_findSlot_eq_none found, monitor.lastSeen_victim_le⟩

/-! ## The table stays sound -/

/-- What opening a state changes in its layer. -/
def openLayer (expansions : ℤ) (layer : LayerStats S F) : LayerStats S F :=
  { layer with
    currentOpened := layer.currentOpened + 1
    openedSinceRequest := layer.openedSinceRequest + 1
    lastSeenExpansion := expansions }

def SameKeys (monitor monitor' : TriggerMonitor S F) : Prop :=
  ∀ index, (monitor'.layers index).map LayerStats.hKey = (monitor.layers index).map LayerStats.hKey

theorem SameKeys.of_layers (same : monitor'.layers = monitor.layers) : SameKeys monitor monitor' := by
  intro index
  rw [same]

theorem SameKeys.trans {monitor'' : TriggerMonitor S F} (same : SameKeys monitor monitor')
    (more : SameKeys monitor' monitor'') : SameKeys monitor monitor'' := fun index => (more index).trans (same index)

theorem SoundTable.of_keys (sound : monitor.SoundTable) (same : SameKeys monitor monitor') : monitor'.SoundTable :=
  ProbedTable.Sound.of_keys sound same

theorem SoundTable.changeLayer (sound : monitor.SoundTable) (h : F) {change : LayerStats S F → LayerStats S F}
    (keeps : ∀ layer, (change layer).hKey = layer.hKey) : (monitor.changeLayer arithmetic config h change).SoundTable := by
  have isKey : (change (monitor.layerForKey (quantizeH arithmetic config h) h)).hKey = quantizeH arithmetic config h := by
    rw [keeps, hKey_layerForKey]
  simp only [SoundTable, TriggerMonitor.changeLayer]
  generalize quantizeH arithmetic config h = key at isKey ⊢
  generalize change (monitor.layerForKey key h) = changed at isKey ⊢
  subst isKey
  by_cases absent : monitor.Absent changed.hKey
  · cases found : monitor.findSlot changed.hKey with
    | some index =>
      rw [slotForKey, found, Option.getD_some]
      exact ProbedTable.Sound.insert_free sound absent ((monitor.findSlot_eq _).symm.trans found)
    | none =>
      rw [findSlot_eq] at found
      exact ProbedTable.Sound.insert_full sound absent (ProbedTable.full_of_findSlot_eq_none found) _
  · simp only [Absent, ProbedTable.Absent, not_forall, not_not] at absent
    obtain ⟨index, layer, isLayer, sameKey⟩ := absent
    rw [← sameKey, sound.slotForKey_eq isLayer]
    refine ProbedTable.Sound.of_keys sound fun other => ?_
    by_cases isSlot : other = index
    · simp [isSlot, isLayer, sameKey]
    · rw [Function.update_of_ne isSlot]

/-- A bucket depends on the table and the number of expansions only. -/
theorem layers_changeLayer_congr (sameLayers : monitor'.layers = monitor.layers)
    (sameExpansions : monitor'.expansions = monitor.expansions) (h : F) (change : LayerStats S F → LayerStats S F) :
    (monitor'.changeLayer arithmetic config h change).layers = (monitor.changeLayer arithmetic config h change).layers := by
  have seen : monitor'.lastSeen = monitor.lastSeen := by
    funext index
    rw [lastSeen, lastSeen, sameLayers]
  have slot : ∀ key, monitor'.slotForKey key = monitor.slotForKey key := by
    intro key
    rw [slotForKey, slotForKey, findSlot_eq, findSlot_eq, victim, victim, sameLayers, seen]
  simp only [changeLayer, layerForKey, initializeLayer, slot, sameLayers, sameExpansions]

theorem layers_recordOpenState {h : F} (counted : ¬(!config.enabled || !arithmetic.isFinite h) = true) :
    (monitor.recordOpenState arithmetic config h).layers =
      if config.enableFrontierPlateau then (monitor.changeLayer arithmetic config h (openLayer monitor.expansions)).layers
      else monitor.layers := by
  rw [recordOpenState, if_neg counted]
  dsimp only
  cases config.enableFrontierPlateau with
  | true =>
    have logged := @layers_changeLayer_congr S F arithmetic config monitor
      { monitor with log := .opened (quantizeH arithmetic config h) :: monitor.log } rfl rfl h (openLayer monitor.expansions)
    rw [if_pos rfl, if_pos rfl, ← logged]
    split <;> rfl
  | false =>
    rw [if_neg Bool.false_ne_true, if_neg Bool.false_ne_true]
    split <;> rfl

theorem soundTable_of_layers (sound : monitor.SoundTable) (same : monitor'.layers = monitor.layers) :
    monitor'.SoundTable := sound.of_keys (.of_layers same)

theorem SoundTable.recordOpenState (sound : monitor.SoundTable) (h : F) :
    (monitor.recordOpenState arithmetic config h).SoundTable := by
  by_cases skipped : (!config.enabled || !arithmetic.isFinite h) = true
  · rw [TriggerMonitor.recordOpenState, if_pos skipped]
    exact sound
  · rw [SoundTable, layers_recordOpenState skipped]
    split
    case isTrue => exact sound.changeLayer h fun _ => rfl
    case isFalse => exact sound

variable (arithmetic config) in
theorem SoundTable.recordLayerExpanded (sound : monitor.SoundTable) (stateId : S) (h : F) :
    (monitor.recordLayerExpanded arithmetic config stateId h).SoundTable := by
  rw [TriggerMonitor.recordLayerExpanded]
  split
  case isTrue => exact sound.changeLayer h fun _ => rfl
  case isFalse => exact sound

theorem layers_recordExpandedWithoutH : (monitor.recordExpandedWithoutH config).layers = monitor.layers := by
  rw [recordExpandedWithoutH]
  split <;> rfl

/-! ## Requests and analyses -/

theorem hKey_updateWindow (layer : LayerStats S F) (historyCursor : ℕ) :
    (layer.updateWindow arithmetic config historyCursor).hKey = layer.hKey := by
  simp only [LayerStats.updateWindow]
  repeat' split
  all_goals rfl

theorem sameKeys_closeWindows : SameKeys monitor (monitor.closeWindows arithmetic config) := by
  intro index
  simp only [closeWindows, Option.map_map, Function.comp_def, hKey_updateWindow]

section Requests

variable [DecidableEq S] {bridgeAccepts : ℕ → Bool}

variable (config bridgeAccepts monitor) in
theorem layers_requestState (stateId : S) (trigger : Trigger) (bypassSpacing : Bool) :
    (monitor.requestState config bridgeAccepts stateId trigger bypassSpacing).2.layers = monitor.layers := by
  rw [requestState]
  repeat' split
  all_goals rfl

theorem sameKeys_markRequested (index : Fin layerTableCapacity) : SameKeys monitor (monitor.markRequested index) := by
  intro other
  by_cases isSlot : other = index
  · subst isSlot
    simp [markRequested, Function.comp_def]
  · simp [markRequested, Function.update_of_ne isSlot]

variable (config bridgeAccepts) in
theorem sameKeys_submitCandidates (includeGlobalStall : Bool) (candidates : List (Fin layerTableCapacity))
    (submitted : ℕ) (monitor : TriggerMonitor S F) :
    SameKeys monitor (submitCandidates config bridgeAccepts includeGlobalStall candidates submitted monitor).2 := by
  fun_induction submitCandidates config bridgeAccepts includeGlobalStall candidates submitted monitor with
  | case1 => exact .of_layers rfl
  | case2 => assumption
  | case3 => assumption
  | case4 index candidates submitted monitor _ layer _ stateId _ trigger requested isRequested inductionHypothesis =>
    have same := layers_requestState config monitor bridgeAccepts stateId
      trigger (decide (0 < submitted))
    rw [isRequested] at same
    exact ((SameKeys.of_layers same).trans (sameKeys_markRequested index)).trans inductionHypothesis
  | case5 index candidates submitted monitor _ layer _ stateId _ trigger requested isRequested inductionHypothesis =>
    have same := layers_requestState config monitor bridgeAccepts stateId
      trigger (decide (0 < submitted))
    rw [isRequested] at same
    exact (SameKeys.of_layers same).trans inductionHypothesis
  | case6 => exact .of_layers rfl

theorem sameKeys_submitLayerCandidates (includeGlobalStall : Bool) (fallbackState : S) :
    SameKeys monitor (monitor.submitLayerCandidates arithmetic config bridgeAccepts includeGlobalStall fallbackState) := by
  rw [submitLayerCandidates]
  split
  case isTrue => exact .of_layers rfl
  case isFalse =>
    generalize (monitor.collectLayerCandidates arithmetic config).take config.candidateLayers = candidates
    have same := sameKeys_submitCandidates config bridgeAccepts includeGlobalStall candidates 0 monitor
    refine same.trans (.of_layers ?_)
    have fallback := layers_requestState config
      (submitCandidates config bridgeAccepts includeGlobalStall candidates 0 monitor).2 bridgeAccepts fallbackState .globalStall false
    dsimp only
    split
    case isTrue =>
      -- The state of the analysis is requested when no layer was.
      generalize requestState config bridgeAccepts _ fallbackState .globalStall false = result at fallback ⊢
      obtain ⟨accepted, monitor'⟩ := result
      cases accepted <;> dsimp only <;> split <;> exact fallback
    case isFalse => split <;> rfl

theorem sameKeys_analyzeLayers (stateId : S) :
    SameKeys monitor (monitor.analyzeLayers arithmetic config bridgeAccepts stateId) :=
  sameKeys_closeWindows.trans (sameKeys_submitLayerCandidates _ stateId)

theorem SoundTable.recordExpanded (sound : monitor.SoundTable) (stateId : S) (h : F) :
    (monitor.recordExpanded arithmetic config bridgeAccepts stateId h).SoundTable := by
  have counted : (monitor.recordExpandedWithoutH config).SoundTable :=
    soundTable_of_layers sound layers_recordExpandedWithoutH
  rw [TriggerMonitor.recordExpanded]
  split
  case isTrue => exact counted
  case isFalse =>
    have recorded := counted.recordLayerExpanded arithmetic config stateId h
    dsimp only
    split
    case isTrue => exact (soundTable_of_layers recorded rfl).of_keys (sameKeys_analyzeLayers stateId)
    case isFalse => exact recorded

theorem layers_checkAncestor (stateId : S) (stagnant : Bool) :
    (monitor.checkAncestor config bridgeAccepts stateId stagnant).layers = monitor.layers := by
  have checked : (monitor.shouldCheckAncestor config).2.layers = monitor.layers := by
    rw [shouldCheckAncestor]
    repeat' split
    all_goals rfl
  rw [checkAncestor]
  generalize monitor.shouldCheckAncestor config = result at checked
  obtain ⟨checks, monitor'⟩ := result
  cases checks with
  | false => exact checked
  | true =>
    cases stagnant with
    | false => exact checked
    | true => exact (layers_requestState config _ bridgeAccepts stateId .ancestor false).trans checked

theorem layers_pollBridge (responses : List S) : (monitor.pollBridge config responses).layers = monitor.layers := by
  rw [pollBridge]
  split <;> rfl

theorem SoundTable.next (sound : monitor.SoundTable) (event : MonitorEvent S F) :
    (monitor.next arithmetic config bridgeAccepts event).SoundTable := by
  cases event with
  | opened h => exact sound.recordOpenState h
  | expanded stateId h => exact sound.recordExpanded stateId h
  | expandedWithoutH => exact soundTable_of_layers sound layers_recordExpandedWithoutH
  | checkAncestor stateId stagnant => exact soundTable_of_layers sound (layers_checkAncestor stateId stagnant)
  | polled responses => exact soundTable_of_layers sound (layers_pollBridge responses)

end Requests

/-! ## The table as a map -/

/-- The slot that a call returns, and the monitor after it. -/
def layerForH (arithmetic : FloatArithmetic F) (config : TriggerConfig F) (monitor : TriggerMonitor S F) (h : F) :
    Fin layerTableCapacity × TriggerMonitor S F :=
  (monitor.slotForKey (quantizeH arithmetic config h), monitor.changeLayer arithmetic config h id)

/-- A bounded map that forgets the bucket seen least recently. -/
structure LeastRecentlySeenMap (arithmetic : FloatArithmetic F) (config : TriggerConfig F)
    (monitor : TriggerMonitor S F) : Prop where
  distinct : ∀ first second layer other, monitor.layers first = some layer → monitor.layers second = some other →
    layer.hKey = other.hKey → first = second
  present : ∀ h index layer, monitor.layers index = some layer → layer.hKey = quantizeH arithmetic config h →
    (monitor.layerForH arithmetic config h).1 = index ∧
      (monitor.layerForH arithmetic config h).2.layers = monitor.layers
  absent : ∀ h, (∀ index layer, monitor.layers index = some layer → layer.hKey ≠ quantizeH arithmetic config h) →
    let slot := (monitor.layerForH arithmetic config h).1
    (monitor.layerForH arithmetic config h).2.layers =
        Function.update monitor.layers slot (some (monitor.initializeLayer (quantizeH arithmetic config h) h)) ∧
      ∀ evicted, monitor.layers slot = some evicted → ∀ index, ∃ layer, monitor.layers index = some layer ∧
        evicted.lastSeenExpansion ≤ layer.lastSeenExpansion

theorem SoundTable.leastRecentlySeenMap (sound : monitor.SoundTable) :
    LeastRecentlySeenMap arithmetic config monitor where
  distinct _ _ _ _ isLayer isOther sameKey := ProbedTable.Sound.distinct sound isLayer isOther sameKey
  present h index layer isLayer isKey := by
    have slot := sound.slotForKey_eq isLayer
    have found := sound.layerForKey_eq isLayer h
    rw [isKey] at slot found
    refine ⟨slot, ?_⟩
    simp only [layerForH, TriggerMonitor.changeLayer, slot, found, id]
    rw [← isLayer, Function.update_eq_self]
  absent h absent := by
    refine ⟨?_, fun evicted isEvicted index => ?_⟩
    · simp only [layerForH, TriggerMonitor.changeLayer, layerForKey_absent absent, id]
    · obtain free | ⟨full, least⟩ := slotForKey_absent absent
      · exact absurd (isEvicted.symm.trans free) (by simp)
      obtain ⟨layer, isLayer⟩ := Option.ne_none_iff_exists'.mp (full index)
      refine ⟨layer, isLayer, ?_⟩
      have older := least index
      simp only [layerForH] at isEvicted
      simpa only [lastSeen, isLayer, isEvicted, Option.elim_some] using older

/-- What happens to the table: calls on their own and the events of a search. -/
inductive TableCall (S F : Type) where
  | layerForH (h : F)
  | requestInitial (stateId : S)
  | event (event : MonitorEvent S F)

def tableMachine [DecidableEq S] (arithmetic : FloatArithmetic F) (config : TriggerConfig F)
    (bridgeAccepts : ℕ → Bool) : Machine (TriggerMonitor S F) (TableCall S F) where
  start := start arithmetic
  next monitor call :=
    match call with
    | .layerForH h => (monitor.layerForH arithmetic config h).2
    | .requestInitial stateId => monitor.maybeRequestInitial config bridgeAccepts stateId
    | .event event => monitor.next arithmetic config bridgeAccepts event

/-- At all times the table is such a map. -/
theorem leastRecentlySeenMap_run [DecidableEq S] (arithmetic : FloatArithmetic F) (config : TriggerConfig F)
    (bridgeAccepts : ℕ → Bool) (calls : List (TableCall S F)) :
    LeastRecentlySeenMap arithmetic config ((tableMachine arithmetic config bridgeAccepts).run calls) := by
  apply SoundTable.leastRecentlySeenMap
  refine (tableMachine arithmetic config bridgeAccepts).run_invariant soundTable_start ?_ calls
  intro monitor call sound
  cases call with
  | layerForH h => exact sound.changeLayer h fun _ => rfl
  | requestInitial stateId =>
    refine soundTable_of_layers sound ?_
    simp only [tableMachine, maybeRequestInitial]
    split
    case isTrue => rfl
    case isFalse => exact layers_requestState config _ bridgeAccepts stateId .initial true
  | event event => exact sound.next event

end CutPlan.Search.TriggerMonitor
