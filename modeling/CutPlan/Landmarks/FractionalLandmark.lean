import CutPlan.Landmarks.Termination

/-! # Fractional landmarks

What an operator sequence achieves if nothing is taken back, and that every sequence that achieves the
goal contributes at least 1 to a cut.
-/

namespace CutPlan.Landmarks

open CutPlan.Lib Exploration

/-! ## Contributions -/

/-- The left-hand side of the constraint, for the numbers of occurrences in the sequence. -/
def contribution (landmark : List (ℚ × ℕ)) (plan : List ℕ) : ℚ :=
  (landmark.map fun entry => (plan.count entry.2 : ℚ) / entry.1).sum

/-- What one occurrence of the operator contributes. -/
def weight (landmark : List (ℚ × ℕ)) (opId : ℕ) : ℚ := contribution landmark [opId]

section Contribution

variable {landmark : List (ℚ × ℕ)}

theorem contribution_cons (opId : ℕ) (plan : List ℕ) :
    contribution landmark (opId :: plan) = weight landmark opId + contribution landmark plan := by
  unfold weight contribution
  induction landmark with
  | nil => simp
  | cons entry landmark inductionHypothesis =>
    simp only [List.map_cons, List.sum_cons, inductionHypothesis]
    have count : ((opId :: plan).count entry.2 : ℚ) = [opId].count entry.2 + plan.count entry.2 := by
      rw [← Nat.cast_add, ← List.count_append, List.singleton_append]
    rw [count, add_div]
    ring

theorem contribution_append (first second : List ℕ) :
    contribution landmark (first ++ second) =
      contribution landmark first + contribution landmark second := by
  induction first with
  | nil => simp [contribution]
  | cons opId first inductionHypothesis =>
    rw [List.cons_append, contribution_cons, contribution_cons, inductionHypothesis, add_assoc]

theorem contribution_nonneg (positive : ∀ entry ∈ landmark, 0 < entry.1) (plan : List ℕ) :
    0 ≤ contribution landmark plan := by
  apply List.sum_nonneg
  intro share member
  obtain ⟨entry, isEntry, rfl⟩ := List.mem_map.mp member
  exact div_nonneg (Nat.cast_nonneg _) (positive entry isEntry).le

theorem le_weight (positive : ∀ entry ∈ landmark, 0 < entry.1) {m : ℚ} {opId : ℕ}
    (member : (m, opId) ∈ landmark) : 1 / m ≤ weight landmark opId := by
  have share : (([opId].count opId : ℕ) : ℚ) / m = 1 / m := by simp
  rw [← share]
  apply List.single_le_sum
  · intro other isOther
    obtain ⟨entry, isEntry, rfl⟩ := List.mem_map.mp isOther
    exact div_nonneg (Nat.cast_nonneg _) (positive entry isEntry).le
  · exact List.mem_map_of_mem (f := fun entry : ℚ × ℕ => ([opId].count entry.2 : ℚ) / entry.1) member

theorem contribution_take_succ {plan : List ℕ} {time opId : ℕ} (occurs : plan[time]? = some opId) :
    contribution landmark (plan.take (time + 1)) =
      contribution landmark (plan.take time) + weight landmark opId := by
  rw [List.take_add_one, occurs, contribution_append]
  rfl

theorem contribution_take_le (positive : ∀ entry ∈ landmark, 0 < entry.1) (plan : List ℕ) (time : ℕ) :
    contribution landmark (plan.take time) ≤ contribution landmark plan := by
  have split := @contribution_append landmark (plan.take time) (plan.drop time)
  rw [List.take_append_drop] at split
  rw [split]
  exact le_add_of_nonneg_right (contribution_nonneg positive _)

end Contribution

/-! ## Runs of the relaxed task -/

namespace RelaxedTask

variable (task : RelaxedTask)

/-- What has held at the time or before: facts come from the state, from the operators of the sequence,
and from free operators in between; conditions hold where they lack nothing. -/
inductive Achieves (plan : List ℕ) (lacks : ℕ → ℕ → ℚ) : ℕ → RelaxedProposition → Prop where
  | initial {time prop} (isInitial : prop ∈ task.initialPropositions) : Achieves plan lacks time prop
  | persists {time prop} (before : Achieves plan lacks time prop) : Achieves plan lacks (time + 1) prop
  | effect {time opId prop} {index : task.Op} (occurs : plan[time]? = some opId)
      (own : (task.op index).originalOpId = some opId) (member : prop ∈ (task.op index).effects)
      (isFact : ∀ id, prop ≠ .condition id)
      (premises : ∀ premise ∈ (task.op index).preconditions, Achieves plan lacks time premise) :
      Achieves plan lacks (time + 1) prop
  | derived {time prop} {index : task.Op} (free : task.baseCost index = 0)
      (member : prop ∈ (task.op index).effects) (isFact : ∀ id, prop ≠ .condition id)
      (premises : ∀ premise ∈ (task.op index).preconditions, Achieves plan lacks time premise) :
      Achieves plan lacks time prop
  | condition {time id} (valid : id < task.conditionCount) (satisfied : lacks time id ≤ 0) :
      Achieves plan lacks time (.condition id)

/-- The operator reduces what the condition lacks, by its net effect at most. -/
structure Reduces (plan : List ℕ) (lacks : ℕ → ℕ → ℚ) (time opId id : ℕ) (index : task.Op) : Prop where
  own : (task.op index).originalOpId = some opId
  member : .condition id ∈ (task.op index).effects
  finite : (task.op index).infinite = false
  reduction : lacks time id - lacks (time + 1) id ≤ task.netEffect opId id
  premises : ∀ premise ∈ (task.op index).preconditions, task.Achieves plan lacks time premise

/-- The sequence leads from the state to the goal, where the table says how much each condition lacks
after so many operators. -/
structure RelaxedRun (plan : List ℕ) (lacks : ℕ → ℕ → ℚ) : Prop where
  start : ∀ id, lacks 0 id = task.numericInitialState id
  step : ∀ time opId, plan[time]? = some opId → ∀ id < task.conditionCount,
    lacks (time + 1) id < lacks time id → ∃ index, task.Reduces plan lacks time opId id index
  goal : ∃ index : task.Op, (task.op index).originalOpId = none ∧
    ∀ premise ∈ (task.op index).preconditions, task.Achieves plan lacks plan.length premise

/-- No operator needs less than the precision of an application to achieve an effect. -/
def EdgesLarge : Prop :=
  ∀ index, ∀ effect ∈ (task.op index).effects, effect ∉ task.initialPropositions →
    (cutMultiplicity index effect).isSome = true

end RelaxedTask

/-! ## The cut -/

namespace LandmarkLoop

variable {task : RelaxedTask} {env : Environment} {loop after : LandmarkLoop task env}

theorem multiplicity_pos (positive : 0 < task.options.precision) {entry : ℚ × ℕ} (member : entry ∈ landmark loop.costs loop.cut) :
    0 < entry.1 := by
  obtain ⟨opId, -, isEntry⟩ := List.mem_filterMap.mp member
  obtain ⟨m, isM, rfl⟩ := Option.map_eq_some_iff.mp isEntry
  obtain ⟨index, -, isCharged⟩ := exists_charged_of_operatorToM isM
  obtain ⟨_, minCutCost, -, -, large, costly, rfl⟩ := chargedMultiplicity_eq_some.mp isCharged
  exact div_pos (positive.trans_le large) (positive.trans_le costly)

/-- The iteration hands a landmark to the callback. -/
structure Hands (loop after : LandmarkLoop task env) (draws iterations : ℕ) : Prop where
  reached : ReachedIf Chargeable draws iterations loop
  chargeable : loop.Chargeable
  continues : loop.Continues
  isNext : loop.next = some after

section Hands

variable {draws iterations : ℕ} (positive : 0 < task.options.precision)
  (hands : loop.Hands after draws iterations)

include positive hands

theorem Hands.costly {entry : task.Op × ℚ} (inCut : entry ∈ loop.cut) :
    task.options.precision ≤ loop.costs entry.1 ∧
      task.options.precision ≤ CutSearch.edgeCost loop.costs entry := by
  obtain ⟨nonneg, consistent⟩ := exists_consistent hands.reached
  exact costly_of_mem_cut positive hands.chargeable consistent hands.continues inCut

/-- Free operators are not in the cut, in particular the goal operator. -/
theorem Hands.baseCost_ne_zero {entry : task.Op × ℚ} (inCut : entry ∈ loop.cut) :
    task.baseCost entry.1 ≠ 0 := by
  intro free
  have costly := (hands.costly positive inCut).1
  have leBase := le_base_of_reached hands.reached entry.1
  linarith

/-- An operator whose preconditions are before the goal zone has its effects there, or is in the cut. -/
theorem Hands.followed {index : task.Op}
    (premises : ∀ premise ∈ (task.op index).preconditions, premise ∈ loop.search.beforeGoalZone)
    {effect : RelaxedProposition} (member : effect ∈ (task.op index).effects) {m : ℚ}
    (multiplicity : cutMultiplicity index effect = some m) :
    effect ∈ loop.search.beforeGoalZone ∨ ∃ least, (index, least) ∈ loop.cut ∧ least ≤ m := by
  obtain ⟨nonneg, consistent⟩ := exists_consistent hands.reached
  obtain ⟨-, asserted, -⟩ := next_eq_some hands.isNext
  have satisfied : loop.exploration.unsatisfiedPreconditions index = 0 := by
    rw [consistent.founded.triggered]
    intro premise isPremise
    exact (consistent.reached premise).mp (asserted.2 premise (premises premise isPremise))
  obtain ⟨supporter, supports⟩ := consistent.founded.exists_supporter index
    (hands.chargeable.preconditions index) satisfied
  have isPremise := (consistent.founded.supporting index supporter supports).1
  have follows := (secondExploration_isCut loop.costs loop.exploration).followed supporter
    (premises supporter isPremise) index supports isPremise effect member m multiplicity
  refine follows.imp_right fun ⟨least, inCut, le⟩ => ⟨least, inCut, ?_⟩
  -- the operator has a cost, so its multiplicities compare like the costs of its edges
  exact le_of_mul_le_mul_right le (positive.trans_le (hands.costly positive inCut).1)

/-- The landmark has the operators of the cut, with multiplicities that are not larger. -/
theorem Hands.landmark_of_mem_cut {index : task.Op} {least : ℚ} (inCut : (index, least) ∈ loop.cut)
    {opId : ℕ} (own : (task.op index).originalOpId = some opId) :
    ∃ m, (m, opId) ∈ landmark loop.costs loop.cut ∧ m ≤ least := by
  have costly := (hands.costly positive inCut).1
  have inFiltered : (index, least) ∈
      loop.cut.filter fun other => (task.op other.1).originalOpId = some opId :=
    List.mem_filter.mpr ⟨inCut, by simpa using own⟩
  obtain ⟨minCutCost, isMin⟩ : ∃ minCutCost,
      operatorToMinCutCost loop.costs loop.cut opId = some minCutCost := by
    rw [← Option.isSome_iff_exists, operatorToMinCutCost, List.isSome_min?_iff]
    exact List.ne_nil_of_mem (List.mem_map_of_mem inFiltered)
  have large : task.options.precision ≤ minCutCost := by
    obtain ⟨entry, isEntry, rfl⟩ := CutSearch.exists_of_min isMin
    exact (hands.costly positive (List.mem_of_mem_filter isEntry)).2
  have isCharged : chargedMultiplicity loop.costs loop.cut index =
      some (minCutCost / loop.costs index) :=
    chargedMultiplicity_eq_some.mpr ⟨opId, minCutCost, own, isMin, large, costly, rfl⟩
  -- the last copy of the operator that is charged has the same cost as this one
  obtain ⟨m, isM⟩ : ∃ m, operatorToM loop.costs loop.cut opId = some m := by
    rw [← Option.isSome_iff_exists, operatorToM, List.getLast?_isSome]
    apply List.ne_nil_of_mem
    exact List.mem_filterMap.mpr ⟨index, by simpa [originalToRelaxedOperators] using own, isCharged⟩
  obtain ⟨copy, isCopy, chargedCopy⟩ := exists_charged_of_operatorToM isM
  have sameOp := isCopy.trans own.symm
  rw [chargedMultiplicity_congr sameOp
    ((reached_accounted hands.reached.reached).copies copy index sameOp), isCharged] at chargedCopy
  cases chargedCopy
  refine ⟨_, List.mem_filterMap.mpr ⟨opId, ?_, by rw [isM]; rfl⟩, ?_⟩
  · rw [List.mem_dedup, List.mem_filterMap]
    exact ⟨(index, least), inCut, own⟩
  · rw [div_le_iff₀ (positive.trans_le costly)]
    exact min_map_le isMin inFiltered

/-- An occurrence of an operator of the cut contributes the reciprocal of its multiplicity. -/
theorem Hands.le_weight {index : task.Op} {least : ℚ} (inCut : (index, least) ∈ loop.cut)
    {opId : ℕ} (own : (task.op index).originalOpId = some opId) {m : ℚ} (le : least ≤ m) :
    1 / m ≤ weight (landmark loop.costs loop.cut) opId := by
  obtain ⟨multiplicity, member, leLeast⟩ := hands.landmark_of_mem_cut positive inCut own
  have multiplicityPos := multiplicity_pos positive member
  exact (one_div_le_one_div_of_le multiplicityPos (leLeast.trans le)).trans
    (CutPlan.Landmarks.le_weight (fun _ isEntry => multiplicity_pos positive isEntry) member)

end Hands

/-! ## Sequences to the goal -/

section Runs

variable {plan : List ℕ} {lacks : ℕ → ℕ → ℚ}

theorem cutMultiplicity_condition (multiplies : task.options.disableMa = false) {index : task.Op}
    (finite : (task.op index).infinite = false) {opId id : ℕ}
    (own : (task.op index).originalOpId = some opId) {m : ℚ}
    (multiplicity : cutMultiplicity index (.condition id) = some m)
    (positive : 0 < task.options.precision) :
    0 < task.netEffect opId id ∧
      (m = task.numericInitialState id / task.netEffect opId id ∨
        m = max (task.numericInitialState id / task.netEffect opId id) 1) := by
  obtain ⟨isTimes, large⟩ := cutMultiplicity_eq_some.mp multiplicity
  simp only [RelaxedTask.calculateNumericTimes, RelaxedTask.netOf, multiplies, finite, own,
    Bool.not_false, Bool.and_self, if_true, Option.elim_some] at isTimes
  split at isTimes
  · linarith
  · rename_i notSmall
    refine ⟨positive.trans_le (not_lt.mp notSmall), ?_⟩
    split at isTimes
    · linarith
    · split at isTimes
      · exact .inr isTimes.symm
      · exact .inl isTimes.symm

variable {draws iterations : ℕ} (positive : 0 < task.options.precision)
  (hands : loop.Hands after draws iterations) (multiplies : task.options.disableMa = false)
  (edgesLarge : task.EdgesLarge)

include positive hands multiplies edgesLarge

/-- One step: what it takes from a condition that the cut protects is paid for by its contribution. -/
theorem Hands.reduction_le {time opId id : ℕ} {index : task.Op}
    (reduces : task.Reduces plan lacks time opId id index)
    (before : ∀ prop, task.Achieves plan lacks time prop → prop ∈ loop.search.beforeGoalZone)
    (outside : .condition id ∉ loop.search.beforeGoalZone)
    (lacking : 0 < task.numericInitialState id) :
    1 ≤ weight (landmark loop.costs loop.cut) opId ∨
      lacks time id - lacks (time + 1) id ≤
        task.numericInitialState id * weight (landmark loop.costs loop.cut) opId := by
  have notInitial : RelaxedProposition.condition id ∉ task.initialPropositions := fun isInitial =>
    outside ((secondExploration_isCut loop.costs loop.exploration).initial _ isInitial)
  obtain ⟨m, multiplicity⟩ := Option.isSome_iff_exists.mp
    (edgesLarge index _ reduces.member notInitial)
  obtain ⟨net, isM⟩ :=
    cutMultiplicity_condition multiplies reduces.finite reduces.own multiplicity positive
  obtain ⟨least, inCut, le⟩ := (hands.followed positive
    (fun premise isPremise => before premise (reduces.premises premise isPremise))
    reduces.member multiplicity).resolve_left outside
  have share := hands.le_weight positive inCut reduces.own le
  -- a multiplicity below 1 is raised to 1 at most
  by_cases raised : m ≤ 1
  · left
    have mPos : 0 < m := positive.trans_le (cutMultiplicity_eq_some.mp multiplicity).2
    exact ((one_le_div mPos).mpr raised).trans share
  · right
    have isQuotient : m = task.numericInitialState id / task.netEffect opId id := by
      cases isM with
      | inl isQuotient => exact isQuotient
      | inr isMax =>
        rw [isMax]
        apply max_eq_left
        by_contra below
        exact raised (isMax.trans_le (max_le (not_le.mp below).le le_rfl))
    rw [isQuotient, one_div_div] at share
    calc lacks time id - lacks (time + 1) id
        ≤ task.netEffect opId id := reduces.reduction
      _ = task.numericInitialState id * (task.netEffect opId id / task.numericInitialState id) := by
          field_simp
      _ ≤ _ := mul_le_mul_of_nonneg_left share lacking.le

/-- What the sequence has taken from the condition so far is paid for. -/
theorem Hands.lacks_le (run : task.RelaxedRun plan lacks)
    (small : contribution (landmark loop.costs loop.cut) plan < 1) {id : ℕ}
    (valid : id < task.conditionCount) (outside : .condition id ∉ loop.search.beforeGoalZone)
    (lacking : 0 < task.numericInitialState id) {bound : ℕ} (within : bound ≤ plan.length)
    (before : ∀ time < bound, ∀ prop, task.Achieves plan lacks time prop →
      prop ∈ loop.search.beforeGoalZone) :
    task.numericInitialState id - lacks bound id ≤
      task.numericInitialState id * contribution (landmark loop.costs loop.cut) (plan.take bound) := by
  have multiplicities : ∀ entry ∈ landmark loop.costs loop.cut, 0 < entry.1 :=
    fun _ member => multiplicity_pos positive member
  induction bound with
  | zero => simp [run.start, contribution]
  | succ time inductionHypothesis =>
    have paid := inductionHypothesis (by omega) fun earlier lt => before earlier (by omega)
    obtain ⟨opId, occurs⟩ : ∃ opId, plan[time]? = some opId :=
      ⟨plan[time], List.getElem?_eq_getElem within⟩
    rw [contribution_take_succ occurs, mul_add]
    have weightNonneg : 0 ≤ weight (landmark loop.costs loop.cut) opId :=
      contribution_nonneg multiplicities _
    by_cases reduced : lacks (time + 1) id < lacks time id
    · obtain ⟨index, reduces⟩ := run.step time opId occurs id valid reduced
      cases hands.reduction_le positive multiplies edgesLarge reduces (before time (Nat.lt_succ_self time))
        outside lacking with
      | inr step => linarith
      | inl whole =>
        -- the contribution of this step alone would be large enough
        have total := contribution_take_le multiplicities plan (time + 1)
        rw [contribution_take_succ occurs] at total
        have earlier := contribution_nonneg multiplicities (plan.take time)
        linarith
    · have noCost := mul_nonneg lacking.le weightNonneg
      linarith

/-- Unless the sequence contributes 1, everything that it achieves stays before the goal zone. -/
theorem Hands.beforeGoalZone_of_achieves (run : task.RelaxedRun plan lacks)
    (small : contribution (landmark loop.costs loop.cut) plan < 1) (bound : ℕ)
    (within : bound ≤ plan.length) :
    ∀ time ≤ bound, ∀ prop, task.Achieves plan lacks time prop → prop ∈ loop.search.beforeGoalZone := by
  have isCut : IsCut loop.costs loop.exploration loop.search := secondExploration_isCut _ _
  have multiplicities : ∀ entry ∈ landmark loop.costs loop.cut, 0 < entry.1 :=
    fun _ member => multiplicity_pos positive member
  have factMultiplicity {index : task.Op} {prop : RelaxedProposition}
      (member : prop ∈ (task.op index).effects) (isFact : ∀ id, prop ≠ .condition id) :
      prop ∈ loop.search.beforeGoalZone ∨ cutMultiplicity index prop = some 1 := by
    by_cases isInitial : prop ∈ task.initialPropositions
    · exact .inl (isCut.initial prop isInitial)
    · obtain ⟨m, multiplicity⟩ := Option.isSome_iff_exists.mp (edgesLarge index prop member isInitial)
      have isTimes := (cutMultiplicity_eq_some.mp multiplicity).1
      cases prop with
      | condition id => exact absurd rfl (isFact id)
      | artificialPrecondition | artificialGoal | fact =>
        rw [multiplicity, ← isTimes]
        exact .inr rfl
  induction bound using Nat.strong_induction_on with
  | _ bound inductionHypothesis =>
    have earlier : ∀ time < bound, ∀ prop, task.Achieves plan lacks time prop →
        prop ∈ loop.search.beforeGoalZone := fun time lt =>
      inductionHypothesis time lt (by omega) time le_rfl
    intro time le prop achieves
    induction achieves with
    | initial isInitial => exact isCut.initial _ isInitial
    | persists _ before => exact before (by omega)
    | @effect time opId prop index occurs own member isFact _ premises =>
      obtain isBefore | multiplicity := factMultiplicity member isFact
      · exact isBefore
      · refine (hands.followed positive (fun premise isPremise => premises premise isPremise (by omega))
          member multiplicity).resolve_right ?_
        rintro ⟨least, inCut, le⟩
        -- one occurrence of the operator is enough
        have share := hands.le_weight positive inCut own le
        have total := contribution_take_le multiplicities plan (time + 1)
        rw [contribution_take_succ occurs] at total
        have before := contribution_nonneg multiplicities (plan.take time)
        linarith
    | @derived time prop index free member isFact _ premises =>
      obtain isBefore | multiplicity := factMultiplicity member isFact
      · exact isBefore
      · refine (hands.followed positive (fun premise isPremise => premises premise isPremise le)
          member multiplicity).resolve_right ?_
        rintro ⟨least, inCut, -⟩
        exact hands.baseCost_ne_zero positive inCut free
    | @condition time id valid satisfied =>
      by_contra outside
      have lacking : task.options.precision ≤ task.numericInitialState id := by
        by_contra small
        apply outside
        apply isCut.initial
        simp only [RelaxedTask.initialPropositions, RelaxedTask.stateConditions, List.mem_append,
          List.mem_map, List.mem_filter, List.mem_range, decide_eq_true_eq]
        exact .inl (.inr ⟨id, ⟨valid, not_le.mp small⟩, rfl⟩)
      have paid := hands.lacks_le positive multiplies edgesLarge run small valid outside
        (positive.trans_le lacking) (le.trans within) (fun earlierTime lt => earlier earlierTime (by omega))
      have total := contribution_take_le multiplicities plan time
      have scaled := mul_lt_mul_of_pos_left (total.trans_lt small) (positive.trans_le lacking)
      linarith

/-- Every sequence to the goal contributes at least 1 to the landmark. -/
theorem Hands.one_le_contribution (run : task.RelaxedRun plan lacks) :
    1 ≤ contribution (landmark loop.costs loop.cut) plan := by
  by_contra small
  obtain ⟨index, isGoalOp, premises⟩ := run.goal
  have before := hands.beforeGoalZone_of_achieves positive multiplies edgesLarge run (not_le.mp small)
    plan.length le_rfl plan.length le_rfl
  have isCut : IsCut loop.costs loop.exploration loop.search := secondExploration_isCut _ _
  have member : RelaxedProposition.artificialGoal ∈ (task.op index).effects := by
    rw [task.goal_effects _ (List.get_mem _ _) isGoalOp]
    exact List.mem_singleton_self _
  have free : task.baseCost index = 0 := by
    rw [RelaxedTask.baseCost, isGoalOp]
    rfl
  obtain ⟨nonneg, consistent⟩ := exists_consistent hands.reached
  obtain ⟨goalCost, isGoalCost, large⟩ := hands.continues
  have notInitial : RelaxedProposition.artificialGoal ∉ task.initialPropositions := by
    intro isInitial
    obtain ⟨cost, labelled, le⟩ := consistent.sources _ isInitial
    rw [labelled] at isGoalCost
    cases isGoalCost
    exact absurd (positive.trans_le large) (not_lt.mpr le)
  obtain ⟨m, multiplicity⟩ := Option.isSome_iff_exists.mp (edgesLarge index _ member notInitial)
  obtain isBefore | ⟨least, inCut, -⟩ := hands.followed positive
    (fun premise isPremise => before premise (premises premise isPremise)) member multiplicity
  · exact (isCut.outside _ isBefore).elim notInitial fun outside => outside.1 goal_mem_markGoalPlateau
  · exact hands.baseCost_ne_zero positive inCut free

end Runs

/-! ## The lower bound -/

section LowerBound

theorem contribution_singleton (landmark : List (ℚ × ℕ)) (cost : ℚ) (opId : ℕ) :
    cost * weight landmark opId = charged [(landmark, cost)] opId := by
  unfold weight contribution charged
  simp only [List.map_cons, List.map_nil, List.sum_cons, List.sum_nil, add_zero]
  induction landmark with
  | nil => simp
  | cons entry landmark inductionHypothesis =>
    rw [List.map_cons, List.sum_cons, mul_add, inductionHypothesis]
    by_cases own : entry.2 = opId
    · rw [List.filter_cons_of_pos (by simpa using own), List.map_cons, List.sum_cons]
      simp [own, div_eq_mul_inv]
    · rw [List.filter_cons_of_neg (by simpa using own)]
      simp [Ne.symm own]

/-- What a sequence contributes to a landmark is what the landmark charges its operators with. -/
theorem mul_contribution (landmark : List (ℚ × ℕ)) (cost : ℚ) (plan : List ℕ) :
    cost * contribution landmark plan = (plan.map (charged [(landmark, cost)])).sum := by
  induction plan with
  | nil => simp [contribution]
  | cons opId plan inductionHypothesis =>
    rw [contribution_cons, mul_add, inductionHypothesis, contribution_singleton, List.map_cons, List.sum_cons]

/-- The landmarks so far, each of which the sequence satisfies. -/
def Satisfied (landmarks : List (List (ℚ × ℕ) × ℚ)) (plan : List ℕ) : Prop :=
  ∀ entry ∈ landmarks, 0 ≤ entry.2 ∧ 1 ≤ contribution entry.1 plan

theorem Satisfied.cost_le_charged {landmarks : List (List (ℚ × ℕ) × ℚ)} {plan : List ℕ}
    (satisfied : Satisfied landmarks plan) :
    (landmarks.map Prod.snd).sum ≤ (plan.map (charged landmarks)).sum := by
  induction landmarks with
  | nil =>
    have uncharged : plan.map (charged []) = plan.map fun _ => 0 := rfl
    simp [uncharged]
  | cons entry landmarks inductionHypothesis =>
    obtain ⟨⟨costNonneg, contributes⟩, rest⟩ := List.forall_mem_cons.mp satisfied
    have split : (plan.map (charged (entry :: landmarks))).sum =
        (plan.map (charged [entry])).sum + (plan.map (charged landmarks)).sum := by
      rw [← List.sum_map_add]
      congr 1
      exact List.map_congr_left fun opId _ => charged_append [entry] landmarks opId
    -- a landmark that is satisfied charges the sequence at least its cost
    rw [split, List.map_cons, List.sum_cons, ← mul_contribution entry.1 entry.2 plan]
    exact add_le_add (le_mul_of_one_le_right costNonneg contributes) (inductionHypothesis rest)

variable {plan : List ℕ} {lacks : ℕ → ℕ → ℚ} {draws iterations : ℕ}

/-- Each iteration adds a landmark that the sequence satisfies. -/
theorem satisfied_of_reached (positive : 0 < task.options.precision)
    (multiplies : task.options.disableMa = false) (edgesLarge : task.EdgesLarge)
    (run : task.RelaxedRun plan lacks) (reached : ReachedIf Chargeable draws iterations loop) :
    Satisfied loop.landmarks plan := by
  induction reached with
  | start => simp [Satisfied, start]
  | @next iterations before after reachedBefore chargeable continues isNext inductionHypothesis =>
    obtain ⟨cost, -, isCost, -, -, isLandmarks⟩ := next_eq_some isNext
    have hands : before.Hands after draws iterations := ⟨reachedBefore, chargeable, continues, isNext⟩
    obtain ⟨nonneg, -⟩ := exists_consistent reachedBefore
    rw [isLandmarks]
    intro entry isEntry
    obtain isOld | isNew := List.mem_append.mp isEntry
    · exact inductionHypothesis entry isOld
    · rw [List.mem_singleton.mp isNew]
      exact ⟨cutCost_nonneg nonneg isCost, hands.one_le_contribution positive multiplies edgesLarge run⟩

/-- The costs of the cuts never add up to more than a sequence to the goal costs. -/
theorem cutCosts_le_planCost (positive : 0 < task.options.precision)
    (multiplies : task.options.disableMa = false) (edgesLarge : task.EdgesLarge)
    (reached : ReachedIf Chargeable draws iterations loop) (run : task.RelaxedRun plan lacks) :
    (loop.landmarks.map Prod.snd).sum ≤ (plan.map task.opBaseCost).sum := by
  have satisfied := satisfied_of_reached positive multiplies edgesLarge run reached
  -- what an operator is charged with, over all landmarks, is at most its base cost
  refine satisfied.cost_le_charged.trans (List.sum_le_sum fun opId _ => ?_)
  exact (reached_accounted reached.reached).partition opId

/-- One application satisfies the condition that lacks 5, and the first cut costs no more. -/
theorem ceiling_cutCosts_le :
    ∃ after, (start ceilingTask defaultEnvironment 0).next = some after ∧
      (after.landmarks.map Prod.snd).sum ≤ ([0].map ceilingTask.opBaseCost).sum := by
  obtain ⟨after, isNext⟩ : ∃ after, (start ceilingTask defaultEnvironment 0).next = some after :=
    Option.isSome_iff_exists.mp (by decide +kernel)
  have positive : 0 < ceilingTask.options.precision := by decide +kernel
  have continues : (start ceilingTask defaultEnvironment 0).Continues := ⟨1, by decide +kernel, by decide +kernel⟩
  have sameEdges : FollowsSameEdges ceilingTask := by
    unfold FollowsSameEdges
    decide +kernel
  have chargeable : (start ceilingTask defaultEnvironment 0).Chargeable :=
    chargeable_of_ceiling positive rfl sameEdges (by decide +kernel) (by decide +kernel) .start
  have edgesLarge : ceilingTask.EdgesLarge := by
    unfold RelaxedTask.EdgesLarge
    decide +kernel
  have run : ceilingTask.RelaxedRun [0] fun time _ => if time = 0 then 5 else -5 := by
    refine ⟨fun _ => rfl, ?_, (1 : Fin 2), rfl, ?_⟩
    · intro time opId occurs id valid lower
      obtain rfl : time = 0 := by
        by_contra later
        simp [later] at lower
      obtain rfl : opId = 0 := by simpa using occurs.symm
      obtain rfl : id = 0 := Nat.lt_one_iff.mp valid
      refine ⟨(0 : Fin 2), rfl, List.mem_singleton_self _, rfl, ?_, ?_⟩
      · change ((if (0 : ℕ) = 0 then 5 else -5 : ℚ) - if (0 + 1 : ℕ) = 0 then 5 else -5) ≤ 10
        norm_num
      · intro premise isPremise
        rw [List.mem_singleton.mp isPremise]
        exact .initial RelaxedTask.artificialPrecondition_mem
    · intro premise isPremise
      rw [List.mem_singleton.mp isPremise]
      exact .condition (by decide) (by norm_num)
  exact ⟨after, isNext, cutCosts_le_planCost positive rfl edgesLarge
    (.next .start chargeable continues isNext) run⟩

end LowerBound

end LandmarkLoop

end CutPlan.Landmarks
