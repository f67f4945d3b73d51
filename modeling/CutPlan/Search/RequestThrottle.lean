import CutPlan.Search.RequestTriggers
import Mathlib.Tactic.Linarith

/-! # Requests are throttled

The budget, the pending limit, the gap between requests and the size of a slot, in every run of the monitor.
-/

namespace CutPlan.Search.TriggerMonitor

variable {S F : Type} [DecidableEq S] {arithmetic : FloatArithmetic F} {config : TriggerConfig F}
  {bridgeAccepts : ℕ → Bool} {monitor monitor' : TriggerMonitor S F}

/-! ## What was submitted -/

def submissionOf : LogEntry S → Option (Submission S)
  | .submitted submission => some submission
  | _ => none

/-- The submissions, the newest first. -/
def submissions (monitor : TriggerMonitor S F) : List (Submission S) := monitor.log.filterMap submissionOf

/-- The layer requests of one expansion count. -/
def layerRequests (monitor : TriggerMonitor S F) (count : ℤ) : ℕ :=
  monitor.submissions.countP fun submission => submission.trigger.isLayer && submission.expansions = count

/-- Submissions at different expansion counts keep the gap. -/
def Spaced (config : TriggerConfig F) (newer older : Submission S) : Prop :=
  newer.expansions ≠ older.expansions →
    config.minRequestGapExpansions ≤ newer.expansions - older.expansions

structure Throttled (config : TriggerConfig F) (monitor : TriggerMonitor S F) : Prop where
  budget : 0 < config.maxRequests → (monitor.requestsSubmitted : ℤ) ≤ config.maxRequests
  counted : monitor.submissions.length = monitor.requestsSubmitted
  pending : 0 < config.maxPending → (monitor.pendingStates.card : ℤ) ≤ config.maxPending
  distinct : (monitor.submissions.map Submission.stateId).Nodup
  requested : ∀ submission ∈ monitor.submissions, submission.stateId ∈ monitor.requestedStates
  spaced : monitor.submissions.Pairwise (Spaced config)
  slots : ∀ count, monitor.layerRequests count ≤ config.requestsPerSlot
  recent : ∀ submission ∈ monitor.submissions,
    0 ≤ submission.expansions ∧ submission.expansions ≤ monitor.lastRequestExpansion
  sinceLast : ∀ submission ∈ monitor.submissions, submission.expansions ≠ monitor.lastRequestExpansion →
    config.minRequestGapExpansions ≤ monitor.lastRequestExpansion - submission.expansions
  last : monitor.lastRequestExpansion ≤ monitor.expansions
  started : 0 ≤ monitor.expansions

/-- What the limits depend on is the same. -/
structure SameRequests (monitor monitor' : TriggerMonitor S F) : Prop where
  pendingStates : monitor'.pendingStates = monitor.pendingStates
  requestedStates : monitor'.requestedStates = monitor.requestedStates
  expansions : monitor'.expansions = monitor.expansions
  requestsSubmitted : monitor'.requestsSubmitted = monitor.requestsSubmitted
  lastRequestExpansion : monitor'.lastRequestExpansion = monitor.lastRequestExpansion
  submissions : monitor'.submissions = monitor.submissions

theorem Throttled.of_same (throttled : monitor.Throttled config) (same : SameRequests monitor monitor') :
    monitor'.Throttled config := by
  obtain ⟨pendingStates, requestedStates, expansions, requestsSubmitted, lastRequestExpansion, submissions⟩ := same
  obtain ⟨budget, counted, pending, distinct, requested, spaced, slots, recent, sinceLast, last, started⟩ :=
    throttled
  constructor
  all_goals
    simp only [layerRequests, pendingStates, requestedStates, expansions, requestsSubmitted, lastRequestExpansion,
      submissions]
    assumption

theorem sameRequests_countAttempt (monitor : TriggerMonitor S F) : SameRequests monitor monitor.countAttempt := by
  constructor <;> rfl

/-! ## One request -/

/-- What a request that is submitted has passed. -/
structure Admitted (config : TriggerConfig F) (monitor : TriggerMonitor S F) (stateId : S) (bypassSpacing : Bool) :
    Prop where
  budget : 0 < config.maxRequests → (monitor.requestsSubmitted : ℤ) < config.maxRequests
  spacing : bypassSpacing = false → 0 ≤ monitor.lastRequestExpansion →
    config.minRequestGapExpansions ≤ monitor.expansions - monitor.lastRequestExpansion
  isNew : stateId ∉ monitor.requestedStates
  pending : 0 < config.maxPending → (monitor.pendingStates.card : ℤ) < config.maxPending

theorem requestState_cases (config : TriggerConfig F) (bridgeAccepts : ℕ → Bool) (monitor : TriggerMonitor S F)
    (stateId : S) (trigger : Trigger) (bypassSpacing : Bool) :
    monitor.requestState config bridgeAccepts stateId trigger bypassSpacing = (false, monitor.countAttempt) ∨
      monitor.requestState config bridgeAccepts stateId trigger bypassSpacing =
          (true, monitor.countAttempt.submit config stateId trigger) ∧
        Admitted config monitor stateId bypassSpacing := by
  rw [requestState]
  split
  · exact .inl rfl
  split
  · exact .inl rfl
  rename_i budget
  split
  · exact .inl rfl
  rename_i spacing
  split
  · exact .inl rfl
  rename_i isNew
  split
  · exact .inl rfl
  rename_i pending
  split
  · exact .inl rfl
  · refine .inr ⟨rfl, ?_, ?_, isNew, ?_⟩
    · simpa [reachedRequestLimit] using budget
    · intro notBypassed
      subst notBypassed
      simpa [requestSpacingActive] using spacing
    · simpa [reachedPendingLimit] using pending

theorem submissions_submit (stateId : S) (trigger : Trigger) :
    (monitor.submit config stateId trigger).submissions =
      ⟨stateId, trigger, monitor.expansions⟩ :: monitor.submissions := rfl

theorem Throttled.submit {stateId : S} {bypassSpacing : Bool} (throttled : monitor.Throttled config)
    (trigger : Trigger) (admitted : Admitted config monitor stateId bypassSpacing)
    (bypass : bypassSpacing = true → monitor.submissions = [] ∨ monitor.lastRequestExpansion = monitor.expansions)
    (slot : trigger.isLayer = true → monitor.layerRequests monitor.expansions < config.requestsPerSlot) :
    (monitor.submit config stateId trigger).Throttled config := by
  -- Every older submission is at this count or keeps the gap to it.
  have gap : ∀ submission ∈ monitor.submissions, submission.expansions ≠ monitor.expansions →
      config.minRequestGapExpansions ≤ monitor.expansions - submission.expansions := by
    intro submission member differs
    have recent := throttled.recent submission member
    cases bypassSpacing with
    | true =>
      obtain none | same := bypass rfl
      · simp [none] at member
      · rw [← same]
        exact throttled.sinceLast submission member (by rwa [same])
    | false =>
      have spacing := admitted.spacing rfl (by omega)
      omega
  constructor
  case budget =>
    intro positive
    have budget := admitted.budget positive
    simp only [TriggerMonitor.submit]
    omega
  case counted =>
    rw [submissions_submit, List.length_cons, throttled.counted]
    rfl
  case pending =>
    intro positive
    have pending := admitted.pending positive
    simp only [TriggerMonitor.submit]
    split
    · have := Finset.card_insert_le stateId monitor.pendingStates
      omega
    · omega
  case distinct =>
    rw [submissions_submit, List.map_cons, List.nodup_cons]
    refine ⟨?_, throttled.distinct⟩
    intro again
    obtain ⟨submission, member, same⟩ := List.mem_map.mp again
    have requested := throttled.requested submission member
    rw [same] at requested
    exact admitted.isNew requested
  case requested =>
    intro submission member
    rw [submissions_submit, List.mem_cons] at member
    cases member with
    | inl same => simp [same, TriggerMonitor.submit]
    | inr older => exact Finset.mem_insert_of_mem (throttled.requested submission older)
  case spaced =>
    rw [submissions_submit, List.pairwise_cons]
    exact ⟨fun submission member differs => gap submission member (Ne.symm differs), throttled.spaced⟩
  case slots =>
    intro count
    have slots := throttled.slots count
    rw [layerRequests, submissions_submit, List.countP_cons]
    change monitor.layerRequests count + _ ≤ _
    split
    case isTrue counts =>
      simp only [Bool.and_eq_true, decide_eq_true_eq] at counts
      have below := slot counts.1
      rw [counts.2] at below
      omega
    case isFalse => omega
  case recent =>
    intro submission member
    rw [submissions_submit, List.mem_cons] at member
    have last := throttled.last
    have started := throttled.started
    cases member with
    | inl same => simpa [same, TriggerMonitor.submit] using started
    | inr older =>
      have recent := throttled.recent submission older
      simp only [TriggerMonitor.submit]
      omega
  case sinceLast =>
    intro submission member differs
    rw [submissions_submit, List.mem_cons] at member
    cases member with
    | inl same => simp [same, TriggerMonitor.submit] at differs
    | inr older => exact gap submission older differs
  case last => simp [TriggerMonitor.submit]
  case started => exact throttled.started

theorem Throttled.requestState (throttled : monitor.Throttled config) (bridgeAccepts : ℕ → Bool) (stateId : S)
    (trigger : Trigger) (bypassSpacing : Bool)
    (bypass : bypassSpacing = true → monitor.submissions = [] ∨ monitor.lastRequestExpansion = monitor.expansions)
    (slot : trigger.isLayer = true → monitor.layerRequests monitor.expansions < config.requestsPerSlot) :
    (monitor.requestState config bridgeAccepts stateId trigger bypassSpacing).2.Throttled config := by
  have attempted : monitor.countAttempt.Throttled config := throttled.of_same (sameRequests_countAttempt monitor)
  obtain rejected | ⟨submitted, admitted⟩ :=
    requestState_cases config bridgeAccepts monitor stateId trigger bypassSpacing
  · rw [rejected]
    exact attempted
  · rw [submitted]
    have admittedNow : Admitted config monitor.countAttempt stateId bypassSpacing :=
      ⟨admitted.budget, admitted.spacing, admitted.isNew, admitted.pending⟩
    exact attempted.submit trigger admittedNow bypass slot

/-! ## A slot of layer requests -/

theorem sameRequests_markRequested (index : Fin layerTableCapacity) :
    SameRequests monitor (monitor.markRequested index) := by
  constructor <;> rfl

/-- The slot is not exceeded by the layer requests of this count, and only the first keeps the gap. -/
structure InSlot (monitor : TriggerMonitor S F) (submitted : ℕ) : Prop where
  count : monitor.layerRequests monitor.expansions ≤ submitted
  again : 0 < submitted → monitor.lastRequestExpansion = monitor.expansions

theorem InSlot.of_same {submitted : ℕ} (inSlot : monitor.InSlot submitted) (same : SameRequests monitor monitor') :
    monitor'.InSlot submitted := by
  constructor
  · simpa only [layerRequests, same.submissions, same.expansions] using inSlot.count
  · simpa only [same.lastRequestExpansion, same.expansions] using inSlot.again

theorem InSlot.submit {submitted : ℕ} (inSlot : monitor.InSlot submitted) (config : TriggerConfig F) (stateId : S)
    (trigger : Trigger) :
    (monitor.submit config stateId trigger).InSlot (submitted + 1) := by
  constructor
  · have count := inSlot.count
    rw [layerRequests, submissions_submit, List.countP_cons]
    change monitor.layerRequests monitor.expansions + _ ≤ _
    split <;> omega
  · simp [TriggerMonitor.submit]

/-- What the loop does with a candidate. -/
theorem submitCandidates_cons (includeGlobalStall : Bool) (index : Fin layerTableCapacity)
    (candidates : List (Fin layerTableCapacity)) (submitted : ℕ) (monitor : TriggerMonitor S F) :
    let result := submitCandidates config bridgeAccepts includeGlobalStall (index :: candidates) submitted monitor
    let rest := submitCandidates config bridgeAccepts includeGlobalStall candidates
    result = (submitted, monitor) ∨ result = rest submitted monitor ∨
      result = rest submitted monitor.countAttempt ∨
        ∃ layer stateId globalStall, submitted < config.requestsPerSlot ∧ monitor.layers index = some layer ∧
          layer.representativeState = some stateId ∧ Admitted config monitor stateId (0 < submitted) ∧
            result = rest (submitted + 1)
              ((monitor.countAttempt.submit config stateId (.layer layer.hKey globalStall)).markRequested index) := by
  intro result rest
  simp only [result, rest, TriggerMonitor.submitCandidates]
  split
  case isFalse => exact .inl rfl
  case isTrue open' =>
    cases occupied : monitor.layers index with
    | none => exact .inr (.inl rfl)
    | some layer =>
      cases represented : layer.representativeState with
      | none => simp only [represented, true_or, or_true]
      | some stateId =>
        simp only [represented]
        obtain rejected | ⟨accepted, admitted⟩ := requestState_cases config bridgeAccepts monitor stateId
          (.layer layer.hKey (includeGlobalStall && submitted = 0)) (0 < submitted)
        · simp only [rejected, true_or, or_true]
        · simp only [accepted]
          exact .inr (.inr (.inr ⟨layer, stateId, _, open', rfl, represented, admitted, rfl⟩))

theorem Throttled.submitCandidates (bridgeAccepts : ℕ → Bool) (includeGlobalStall : Bool)
    (candidates : List (Fin layerTableCapacity)) (submitted : ℕ) (monitor : TriggerMonitor S F)
    (throttled : monitor.Throttled config) (inSlot : monitor.InSlot submitted) :
    (submitCandidates config bridgeAccepts includeGlobalStall candidates submitted monitor).2.Throttled config := by
  induction candidates generalizing submitted monitor with
  | nil => exact throttled
  | cons index candidates inductionHypothesis =>
    have attempt := sameRequests_countAttempt monitor
    obtain stopped | skipped | rejected | ⟨layer, stateId, globalStall, below, _, _, admitted, accepted⟩ :=
      submitCandidates_cons includeGlobalStall index candidates submitted monitor
    · rw [stopped]
      exact throttled
    · rw [skipped]
      exact inductionHypothesis _ _ throttled inSlot
    · rw [rejected]
      exact inductionHypothesis _ _ (throttled.of_same attempt) (inSlot.of_same attempt)
    · rw [accepted]
      have admittedNow : Admitted config monitor.countAttempt stateId (0 < submitted) :=
        ⟨admitted.budget, admitted.spacing, admitted.isNew, admitted.pending⟩
      have inSlotNow := inSlot.of_same attempt
      have throttledNext := (throttled.of_same attempt).submit (.layer layer.hKey globalStall) admittedNow
        (fun bypassed => .inr (inSlot.again (by simpa using bypassed)))
        (fun _ => Nat.lt_of_le_of_lt inSlot.count below)
      have inSlotNext := inSlotNow.submit config stateId (.layer layer.hKey globalStall)
      exact inductionHypothesis _ _ (throttledNext.of_same (sameRequests_markRequested index))
        (inSlotNext.of_same (sameRequests_markRequested index))

/-- Nothing was submitted at this count. -/
theorem Throttled.inSlot (throttled : monitor.Throttled config)
    (fresh : ∀ submission ∈ monitor.submissions, submission.expansions < monitor.expansions) :
    monitor.InSlot 0 := by
  refine ⟨?_, fun positive => absurd positive (Nat.lt_irrefl 0)⟩
  rw [Nat.le_zero, layerRequests, List.countP_eq_zero]
  intro submission member
  have before := fresh submission member
  simp only [Bool.and_eq_true, decide_eq_true_eq, not_and]
  omega

/-- The loop is followed by the fallback if nothing was submitted. -/
theorem submitLayerCandidates_cases (arithmetic : FloatArithmetic F) (config : TriggerConfig F)
    (bridgeAccepts : ℕ → Bool) (monitor : TriggerMonitor S F) (includeGlobalStall : Bool) (fallbackState : S) :
    let result := monitor.submitLayerCandidates arithmetic config bridgeAccepts includeGlobalStall fallbackState
    let looped := (submitCandidates config bridgeAccepts includeGlobalStall
      ((monitor.collectLayerCandidates arithmetic config).take config.candidateLayers) 0 monitor).2
    result = monitor ∨ ∃ requested, result = { looped with globalStallRequested := requested } ∨
      result =
        { (looped.requestState config bridgeAccepts fallbackState .globalStall false).2 with
          globalStallRequested := requested } := by
  intro result looped
  simp only [result, looped, submitLayerCandidates]
  split
  · exact .inl rfl
  right
  generalize submitCandidates config bridgeAccepts includeGlobalStall _ 0 monitor = loop
  obtain ⟨submitted, after⟩ := loop
  dsimp only
  by_cases fallback : (includeGlobalStall && decide (submitted = 0)) = true
  · rw [if_pos fallback]
    generalize after.requestState config bridgeAccepts fallbackState .globalStall false = answered
    obtain ⟨accepted, answeredAfter⟩ := answered
    cases accepted <;> dsimp only <;> split <;> exact ⟨_, .inr rfl⟩
  · rw [if_neg fallback]
    dsimp only
    split <;> exact ⟨_, .inl rfl⟩

theorem sameRequests_globalStallRequested (requested : Bool) :
    SameRequests monitor { monitor with globalStallRequested := requested } := by
  constructor <;> rfl

theorem Throttled.submitLayerCandidates (throttled : monitor.Throttled config)
    (fresh : ∀ submission ∈ monitor.submissions, submission.expansions < monitor.expansions)
    (includeGlobalStall : Bool) (fallbackState : S) :
    (monitor.submitLayerCandidates arithmetic config bridgeAccepts includeGlobalStall fallbackState).Throttled
      config := by
  have looped := Throttled.submitCandidates bridgeAccepts includeGlobalStall
    ((monitor.collectLayerCandidates arithmetic config).take config.candidateLayers) 0 monitor
    throttled (throttled.inSlot fresh)
  obtain closed | ⟨requested, onlyLayers | fallback⟩ := submitLayerCandidates_cases arithmetic config bridgeAccepts
    monitor includeGlobalStall fallbackState
  · rw [closed]
    exact throttled
  · rw [onlyLayers]
    exact looped.of_same (sameRequests_globalStallRequested requested)
  · rw [fallback]
    -- The fallback keeps the gap and is no layer request.
    have answered := looped.requestState bridgeAccepts fallbackState .globalStall false (by simp)
      (by simp [Trigger.isLayer])
    exact answered.of_same (sameRequests_globalStallRequested requested)

/-! ## Events -/

theorem sameRequests_closeWindows (arithmetic : FloatArithmetic F) (config : TriggerConfig F)
    (monitor : TriggerMonitor S F) : SameRequests monitor (monitor.closeWindows arithmetic config) := by
  constructor <;> rfl

theorem sameRequests_recordOpenState (arithmetic : FloatArithmetic F) (config : TriggerConfig F)
    (monitor : TriggerMonitor S F) (h : F) :
    SameRequests monitor (monitor.recordOpenState arithmetic config h) := by
  rw [recordOpenState]
  split
  · constructor <;> rfl
  · dsimp only
    split <;> split <;> constructor <;> rfl

theorem sameRequests_recordLayerExpanded (arithmetic : FloatArithmetic F) (config : TriggerConfig F)
    (monitor : TriggerMonitor S F) (stateId : S) (h : F) :
    SameRequests monitor (monitor.recordLayerExpanded arithmetic config stateId h) := by
  rw [recordLayerExpanded]
  split <;> constructor <;> rfl

theorem sameRequests_lastAnalysisExpansion (monitor : TriggerMonitor S F) (expansions : ℤ) :
    SameRequests monitor { monitor with lastAnalysisExpansion := expansions } := by
  constructor <;> rfl

theorem sameRequests_shouldCheckAncestor (config : TriggerConfig F) (monitor : TriggerMonitor S F) :
    SameRequests monitor (monitor.shouldCheckAncestor config).2 := by
  rw [shouldCheckAncestor]
  split_ifs <;> constructor <;> rfl

theorem Throttled.recordExpandedWithoutH (throttled : monitor.Throttled config) :
    (monitor.recordExpandedWithoutH config).Throttled config := by
  rw [TriggerMonitor.recordExpandedWithoutH]
  split
  · exact throttled
  · have last := throttled.last
    have started := throttled.started
    obtain ⟨budget, counted, pending, distinct, requested, spaced, slots, recent, sinceLast, _, _⟩ := throttled
    constructor
    case last => exact Int.le_add_one last
    case started => exact Int.le_add_one started
    all_goals assumption

/-- An expansion begins a new count. -/
theorem Throttled.fresh_recordExpandedWithoutH (throttled : monitor.Throttled config)
    (enabled : config.enabled = true) :
    ∀ submission ∈ (monitor.recordExpandedWithoutH config).submissions,
      submission.expansions < (monitor.recordExpandedWithoutH config).expansions := by
  rw [TriggerMonitor.recordExpandedWithoutH, enabled]
  intro submission member
  have recent := throttled.recent submission member
  have last := throttled.last
  change submission.expansions < monitor.expansions + 1
  omega

theorem Throttled.analyzeLayers (throttled : monitor.Throttled config)
    (fresh : ∀ submission ∈ monitor.submissions, submission.expansions < monitor.expansions) (stateId : S) :
    (monitor.analyzeLayers arithmetic config bridgeAccepts stateId).Throttled config :=
  (throttled.of_same (sameRequests_closeWindows arithmetic config monitor)).submitLayerCandidates fresh _ _

theorem Throttled.recordExpanded (throttled : monitor.Throttled config) (stateId : S) (h : F) :
    (monitor.recordExpanded arithmetic config bridgeAccepts stateId h).Throttled config := by
  have counted := throttled.recordExpandedWithoutH
  rw [TriggerMonitor.recordExpanded]
  dsimp only
  split
  case isTrue => exact counted
  case isFalse active =>
    have same := sameRequests_recordLayerExpanded arithmetic config (monitor.recordExpandedWithoutH config) stateId h
    have expanded := counted.of_same same
    generalize (monitor.recordExpandedWithoutH config).recordLayerExpanded arithmetic config stateId h = after
      at same expanded ⊢
    split
    · have enabled : config.enabled = true := by
        simp only [Bool.or_eq_true, Bool.not_eq_true', not_or, Bool.not_eq_false] at active
        exact active.1
      have fresh := throttled.fresh_recordExpandedWithoutH enabled
      rw [← same.submissions, ← same.expansions] at fresh
      have analysed := expanded.of_same (sameRequests_lastAnalysisExpansion after after.expansions)
      exact analysed.analyzeLayers fresh stateId
    · exact expanded

theorem Throttled.checkAncestor (throttled : monitor.Throttled config) (stateId : S) (stagnant : Bool) :
    (monitor.checkAncestor config bridgeAccepts stateId stagnant).Throttled config := by
  have checked := throttled.of_same (sameRequests_shouldCheckAncestor config monitor)
  rw [TriggerMonitor.checkAncestor]
  generalize monitor.shouldCheckAncestor config = check at checked
  obtain ⟨due, monitor⟩ := check
  cases due
  · exact checked
  · cases stagnant
    · exact checked
    · exact checked.requestState bridgeAccepts stateId .ancestor false (by simp) (by simp [Trigger.isLayer])

theorem card_foldl_erase_le (responses : List S) (states : Finset S) :
    (responses.foldl (fun states stateId => states.erase stateId) states).card ≤ states.card := by
  induction responses generalizing states with
  | nil => exact Nat.le_refl _
  | cons stateId responses inductionHypothesis =>
    exact (inductionHypothesis _).trans (Finset.card_le_card (Finset.erase_subset stateId states))

theorem Throttled.pollBridge (throttled : monitor.Throttled config) (responses : List S) :
    (monitor.pollBridge config responses).Throttled config := by
  rw [TriggerMonitor.pollBridge]
  split
  · exact throttled
  · have erased := card_foldl_erase_le responses monitor.pendingStates
    have pending := throttled.pending
    obtain ⟨budget, counted, _, distinct, requested, spaced, slots, recent, sinceLast, last, started⟩ := throttled
    constructor
    case pending =>
      intro positive
      have := pending positive
      dsimp only
      omega
    all_goals assumption

/-! ## Runs -/

theorem throttled_start : (start arithmetic : TriggerMonitor S F).Throttled config := by
  constructor
  case budget => exact fun positive => positive.le
  case pending => exact fun positive => positive.le
  all_goals simp [start, submissions, layerRequests]

theorem throttled_afterInitial (initialState : S) (initialH : F) :
    (afterInitial arithmetic config bridgeAccepts initialState initialH).Throttled config := by
  have same := sameRequests_recordOpenState arithmetic config (start arithmetic : TriggerMonitor S F) initialH
  have opened : ((start arithmetic : TriggerMonitor S F).recordOpenState arithmetic config initialH).Throttled
    config := throttled_start.of_same same
  simp only [afterInitial]
  split
  · rw [maybeRequestInitial]
    split
    · exact opened
    -- The initial request does not wait for the gap, but nothing was submitted before it.
    · exact opened.requestState bridgeAccepts initialState .initial true (fun _ => .inl (by rw [same.submissions]; rfl))
        (by simp [Trigger.isLayer])
  · exact opened

theorem Throttled.next (throttled : monitor.Throttled config) (event : MonitorEvent S F) :
    (monitor.next arithmetic config bridgeAccepts event).Throttled config := by
  cases event with
  | opened h => exact throttled.of_same (sameRequests_recordOpenState arithmetic config monitor h)
  | expanded stateId h => exact throttled.recordExpanded stateId h
  | expandedWithoutH => exact throttled.recordExpandedWithoutH
  | checkAncestor stateId stagnant => exact throttled.checkAncestor stateId stagnant
  | polled responses => exact throttled.pollBridge responses

theorem throttled_run (initialState : S) (initialH : F) (events : List (MonitorEvent S F)) :
    ((machine arithmetic config bridgeAccepts initialState initialH).run events).Throttled config :=
  (machine arithmetic config bridgeAccepts initialState initialH).run_invariant
    (throttled_afterInitial initialState initialH) (fun _ event throttled => throttled.next event) events

/-- All requests share one budget, one pending limit and one gap, whatever triggers them and whenever their
responses arrive. -/
theorem requests_throttled (arithmetic : FloatArithmetic F) (config : TriggerConfig F) (bridgeAccepts : ℕ → Bool)
    (initialState : S) (initialH : F) (events : List (MonitorEvent S F)) :
    let monitor := (machine arithmetic config bridgeAccepts initialState initialH).run events
    (0 < config.maxRequests → (monitor.requestsSubmitted : ℤ) ≤ config.maxRequests) ∧
      (0 < config.maxPending → (monitor.pendingStates.card : ℤ) ≤ config.maxPending) ∧
      (monitor.submissions.map Submission.stateId).Nodup ∧
      monitor.submissions.Pairwise (fun newer older => newer.expansions ≠ older.expansions →
        config.minRequestGapExpansions ≤ newer.expansions - older.expansions) ∧
      ∀ count, (monitor.submissions.countP fun submission =>
        submission.trigger.isLayer && submission.expansions = count) ≤ config.requestsPerSlot := by
  intro monitor
  have throttled : monitor.Throttled config := throttled_run initialState initialH events
  exact ⟨throttled.budget, throttled.pending, throttled.distinct, throttled.spaced, throttled.slots⟩

end CutPlan.Search.TriggerMonitor
