import CutPlan.Landmarks.IncrementalAgreement

/-! # Termination

An iteration takes the whole cost of an operator in the cut, unless a cost or the cost of an edge lies
between zero and the precision: then the operator is not charged, and the loop may repeat the same cut
forever.
-/

namespace CutPlan.Landmarks

open CutPlan.Lib CutPlan.Lib.RuleGraph Exploration

namespace LandmarkLoop

variable {task : RelaxedTask} {env : Environment} {loop after : LandmarkLoop task env}

/-! ## The condition -/

/-- Both explorations follow the same edges, apart from those to what holds in the state. -/
def FollowsSameEdges (task : RelaxedTask) : Prop :=
  ∀ index, ∀ effect ∈ (task.op index).effects, effect ∉ task.initialPropositions →
    (queueWeight task.baseCost index effect).isSome = (cutMultiplicity index effect).isSome

/-- The condition on an iteration: no operator with a supporter has a cost, or an edge with a cost,
between zero and the precision. -/
structure Chargeable (loop : LandmarkLoop task env) : Prop where
  sameEdges : FollowsSameEdges task
  preconditions : ∀ index : task.Op, (task.op index).preconditions ≠ []
  costs : ∀ index, (loop.exploration.hMaxSupporter index).isSome = true → loop.costs index = 0 ∨
    task.options.precision ≤ loop.costs index ∧
      ∀ effect ∈ (task.op index).effects, ∀ m, cutMultiplicity index effect = some m →
        task.options.precision ≤ m * loop.costs index

/-- An iteration has found a cut and taken the cost of an operator. -/
structure Progress (before after : LandmarkLoop task env) : Prop where
  cut_nonempty : before.cut ≠ []
  taken : ∃ index, task.options.precision ≤ before.costs index ∧
    after.costs index < task.options.precision

/-! ## The cut -/

section Cut

variable {nonneg : ∀ index, 0 ≤ loop.costs index} {exact : Prop}

theorem queueWeight_of_cutMultiplicity (costs : task.Op → ℚ) (sameEdges : FollowsSameEdges task)
    {index : task.Op} {effect : RelaxedProposition} (member : effect ∈ (task.op index).effects)
    (notInitial : effect ∉ task.initialPropositions)
    (followed : (cutMultiplicity index effect).isSome = true) :
    ∃ weight, queueWeight costs index effect = some weight := by
  rw [← Option.isSome_iff_exists, queueWeight_isSome task.baseCost,
    sameEdges index effect member notInitial]
  exact followed

theorem reachable_of_supported (consistent : Consistent loop.costs nonneg exact loop.exploration)
    (sameEdges : FollowsSameEdges task) {index : task.Op} {supporter effect : RelaxedProposition}
    (supports : loop.exploration.hMaxSupporter index = some supporter)
    (member : effect ∈ (task.op index).effects) (notInitial : effect ∉ task.initialPropositions)
    (followed : (cutMultiplicity index effect).isSome = true) :
    (queueGraph loop.costs nonneg).Reachable effect := by
  obtain ⟨weight, weighs⟩ :=
    queueWeight_of_cutMultiplicity loop.costs sameEdges member notInitial followed
  obtain ⟨isPremise, satisfied⟩ := consistent.founded.supporting index supporter supports
  have edge : (queueGraph loop.costs nonneg).weight index effect = some weight := by
    simp only [queueGraph]
    rw [if_pos ⟨member, List.ne_nil_of_mem isPremise⟩]
    exact weighs
  exact .rule edge ((consistent.founded.triggered index).mp satisfied)

/-- The second exploration reaches only what the first one has. -/
theorem labelled_of_beforeGoalZone (consistent : Consistent loop.costs nonneg exact loop.exploration)
    (sameEdges : FollowsSameEdges task) {prop : RelaxedProposition}
    (isBefore : prop ∈ loop.search.beforeGoalZone) :
    (loop.exploration.hMaxCost prop).isSome = true := by
  rw [consistent.reached]
  by_cases isInitial : prop ∈ task.initialPropositions
  · exact .source isInitial
  · have outside := (secondExploration_isCut loop.costs loop.exploration).outside prop isBefore
    obtain ⟨-, index, supporter, supports, member, followed⟩ := outside.resolve_left isInitial
    exact reachable_of_supported consistent sameEdges supports member isInitial followed

/-- Without a cut everything that can be reached is before the goal zone. -/
theorem beforeGoalZone_of_reachable
    (consistent : Consistent loop.costs nonneg exact loop.exploration)
    (sameEdges : FollowsSameEdges task) (noCut : loop.cut = []) {prop : RelaxedProposition}
    (reachable : (queueGraph loop.costs nonneg).Reachable prop) :
    prop ∈ loop.search.beforeGoalZone := by
  have isCut : IsCut loop.costs loop.exploration loop.search := secondExploration_isCut _ _
  induction reachable with
  | source isSource => exact isCut.initial _ isSource
  | @rule index effect weight weighs premises premisesBefore =>
    simp only [queueGraph] at weighs premises premisesBefore
    split at weighs
    · rename_i applies
      by_cases isInitial : effect ∈ task.initialPropositions
      · exact isCut.initial _ isInitial
      · have satisfied := (consistent.founded.triggered index).mpr premises
        obtain ⟨supporter, supports⟩ :=
          consistent.founded.exists_supporter index applies.2 satisfied
        have isPremise := (consistent.founded.supporting index supporter supports).1
        have followed : (cutMultiplicity index effect).isSome = true := by
          rw [← sameEdges index effect applies.1 isInitial, queueWeight_isSome loop.costs, weighs]
          rfl
        obtain ⟨m, multiplicity⟩ := Option.isSome_iff_exists.mp followed
        have reached := isCut.followed supporter (premisesBefore supporter isPremise) index supports
          isPremise effect applies.1 m multiplicity
        refine reached.resolve_right ?_
        rintro ⟨least, inCut, -⟩
        have empty : loop.search.cut = [] := noCut
        rw [empty] at inCut
        cases inCut
    · cases weighs

/-- From the goal zone the goal is reached for free. -/
theorem goal_free_of_goalZone (positive : 0 < task.options.precision) (chargeable : loop.Chargeable)
    (consistent : Consistent loop.costs nonneg exact loop.exploration) {prop : RelaxedProposition}
    (inZone : prop ∈ markGoalPlateau loop.costs loop.exploration)
    (free : Within loop.exploration.hMaxCost prop 0) :
    Within loop.exploration.hMaxCost .artificialGoal 0 := by
  rw [mem_markGoalPlateau_iff] at inZone
  induction inZone with
  | refl => exact free
  | @tail subgoal supporter _ step inductionHypothesis =>
    apply inductionHypothesis
    obtain ⟨index, isAchiever, isSupporter⟩ := List.mem_filterMap.mp step
    split at isSupporter
    · rename_i achieves
      have member := RelaxedTask.mem_effectOf.mp isAchiever
      by_cases isInitial : subgoal ∈ task.initialPropositions
      · exact consistent.sources subgoal isInitial
      · obtain ⟨weight, weighs⟩ := queueWeight_of_cutMultiplicity loop.costs
          chargeable.sameEdges member isInitial achieves.2.2
        have noCost : loop.costs index = 0 :=
          (chargeable.costs index (by simp [isSupporter])).resolve_right
            fun costly => absurd achieves.1 (not_lt.mpr costly.1)
        have weightZero : weight = 0 := by
          unfold queueWeight at weighs
          rw [noCost] at weighs
          simp only [mul_zero] at weighs
          split at weighs
          · split at weighs
            · split at weighs
              · cases weighs; rfl
              · cases weighs
            · cases weighs
          · cases weighs; rfl
        have labelled := consistent.supporterCost index supporter isSupporter
        obtain ⟨cost, isCost, le⟩ := free
        rw [labelled] at isCost
        cases isCost
        have carried := consistent.carried index supporter isSupporter subgoal member weight weighs 0
          (le_refl 0) le (fun _ => rfl)
        rwa [weightZero, add_zero] at carried
    · cases isSupporter

/-- An operator in the cut is not free. -/
theorem costly_of_mem_cut (positive : 0 < task.options.precision) (chargeable : loop.Chargeable)
    (consistent : Consistent loop.costs nonneg exact loop.exploration) (continues : loop.Continues)
    {entry : task.Op × ℚ} (inCut : entry ∈ loop.cut) :
    task.options.precision ≤ loop.costs entry.1 ∧
      task.options.precision ≤ CutSearch.edgeCost loop.costs entry := by
  have isCut : IsCut loop.costs loop.exploration loop.search := secondExploration_isCut _ _
  obtain ⟨supporter, isBefore, supports, effect, member, inZone, notInitial, multiplicity⟩ :=
    isCut.entries entry inCut
  refine ((chargeable.costs entry.1 (by simp [supports])).resolve_left fun noCost => ?_).imp_right
    fun edges => edges effect member entry.2 multiplicity
  -- otherwise the supporter is in the goal zone too, so it is free and the goal with it
  have supporterInZone := supporter_mem_markGoalPlateau inZone member (noCost ▸ positive)
    (consistent.founded.supporting entry.1 supporter supports).2 multiplicity supports
  have isInitial : supporter ∈ task.initialPropositions :=
    (isCut.outside supporter isBefore).resolve_right fun outside => outside.1 supporterInZone
  obtain ⟨cost, labelled, le⟩ := goal_free_of_goalZone positive chargeable consistent
    supporterInZone (consistent.sources supporter isInitial)
  obtain ⟨goalCost, isGoalCost, large⟩ := continues
  rw [labelled] at isGoalCost
  cases isGoalCost
  exact absurd (positive.trans_le large) (not_lt.mpr le)

theorem cut_nonempty (positive : 0 < task.options.precision) (sameEdges : FollowsSameEdges task)
    (consistent : Consistent loop.costs nonneg exact loop.exploration) (continues : loop.Continues) :
    loop.cut ≠ [] := by
  intro noCut
  obtain ⟨cost, labelled, large⟩ := continues
  have reachable := (consistent.reached .artificialGoal).mp (by rw [labelled]; rfl)
  have isBefore := beforeGoalZone_of_reachable consistent sameEdges noCut reachable
  cases (secondExploration_isCut loop.costs loop.exploration).outside .artificialGoal isBefore with
  | inr outside => exact outside.1 goal_mem_markGoalPlateau
  | inl isInitial =>
    obtain ⟨goalCost, isGoalCost, le⟩ := consistent.sources .artificialGoal isInitial
    rw [labelled] at isGoalCost
    cases isGoalCost
    exact absurd (positive.trans_le large) (not_lt.mpr le)

end Cut

/-! ## One iteration -/

section Iteration

variable {nonneg : ∀ index, 0 ≤ loop.costs index} {exact : Prop}

/-- Nothing stops an iteration whose cut has no free operators. -/
theorem exists_next (positive : 0 < task.options.precision) (chargeable : loop.Chargeable)
    (consistent : Consistent loop.costs nonneg exact loop.exploration)
    (leBase : ∀ index, loop.costs index ≤ task.baseCost index) (continues : loop.Continues) :
    ∃ after, loop.next = some after := by
  have nonempty := cut_nonempty positive chargeable.sameEdges consistent continues
  have asserted : loop.AssertionsHold :=
    ⟨nonempty, fun prop isBefore => labelled_of_beforeGoalZone consistent chargeable.sameEdges isBefore⟩
  obtain ⟨cost, isCost⟩ : ∃ cost, cutCost loop.costs loop.cut = some cost := by
    rw [← Option.isSome_iff_exists, cutCost, List.isSome_min?_iff]
    simpa using nonempty
  have proper : ¬ ((∃ index ∈ loop.cut.map Prod.fst, (task.op index).originalOpId = none) ∨
      ∃ index ∈ requeued (loop.cut.map Prod.fst), loop.exploration.LacksSupporter index) := by
    rintro (⟨index, inCut, isGoalOp⟩ | ⟨index, -, satisfied, unsupported, -⟩)
    · obtain ⟨entry, entryInCut, rfl⟩ := List.mem_map.mp inCut
      have costly := (costly_of_mem_cut positive chargeable consistent continues entryInCut).1
      have isFree : task.baseCost entry.1 = 0 := by rw [RelaxedTask.baseCost, isGoalOp]; rfl
      linarith [leBase entry.1]
    · obtain ⟨supporter, supports⟩ :=
        consistent.founded.exists_supporter index (chargeable.preconditions index) satisfied
      rw [unsupported] at supports
      cases supports
  unfold next
  rw [if_pos asserted, isCost]
  simp only [Option.bind_eq_bind, Option.bind_some, firstExplorationIncremental, if_neg proper]
  exact ⟨_, rfl⟩

/-- The cheapest operator of the cut is charged with its whole cost. -/
theorem next_progress (positive : 0 < task.options.precision) (chargeable : loop.Chargeable)
    (consistent : Consistent loop.costs nonneg exact loop.exploration)
    (leBase : ∀ index, loop.costs index ≤ task.baseCost index) (continues : loop.Continues)
    (isNext : loop.next = some after) : Progress loop after := by
  obtain ⟨cost, asserted, isCost, -, isReduced, -⟩ := next_eq_some isNext
  obtain ⟨entry, inCut, isEdge⟩ := CutSearch.exists_of_min isCost
  have ⟨costly, edgeCostly⟩ := costly_of_mem_cut positive chargeable consistent continues inCut
  refine ⟨asserted.1, entry.1, costly, ?_⟩
  obtain ⟨opId, isOp⟩ : ∃ opId, (task.op entry.1).originalOpId = some opId := by
    cases isOp : (task.op entry.1).originalOpId with
    | some opId => exact ⟨opId, rfl⟩
    | none =>
      have isFree : task.baseCost entry.1 = 0 := by rw [RelaxedTask.baseCost, isOp]; rfl
      linarith [leBase entry.1]
  have inFiltered : entry ∈ loop.cut.filter fun other => (task.op other.1).originalOpId = some opId :=
    List.mem_filter.mpr ⟨inCut, by simpa using isOp⟩
  obtain ⟨minCutCost, isMin⟩ : ∃ minCutCost,
      operatorToMinCutCost loop.costs loop.cut opId = some minCutCost := by
    rw [← Option.isSome_iff_exists, operatorToMinCutCost, List.isSome_min?_iff]
    exact List.ne_nil_of_mem (List.mem_map_of_mem inFiltered)
  -- the operator's cheapest entry is the one that is cheapest at all
  have same : minCutCost = cost := by
    refine le_antisymm ?_ (cutCost_le_operatorToMinCutCost isCost isMin)
    exact isEdge ▸ min_map_le isMin inFiltered
  subst same
  have isCharged : chargedMultiplicity loop.costs loop.cut entry.1 =
      some (minCutCost / loop.costs entry.1) :=
    chargedMultiplicity_eq_some.mpr ⟨opId, minCutCost, isOp, isMin, isEdge ▸ edgeCostly, costly, rfl⟩
  have whole : minCutCost / (minCutCost / loop.costs entry.1) = loop.costs entry.1 := by
    rw [div_div_cancel₀]
    rw [← isEdge]
    exact (positive.trans_le edgeCostly).ne'
  rw [isReduced, reduced, reducedCost, isCharged]
  simp only [whole, sub_self, if_pos positive]
  exact positive

end Iteration

/-! ## Runs -/

/-- The number of operators that can still be charged. -/
def costlyCount (loop : LandmarkLoop task env) : ℕ :=
  (Finset.univ.filter fun index => task.options.precision ≤ loop.costs index).card

theorem costlyCount_lt (le : ∀ index, after.costs index ≤ loop.costs index)
    (progress : Progress loop after) : after.costlyCount < loop.costlyCount := by
  obtain ⟨index, before, taken⟩ := progress.taken
  apply Finset.card_lt_card
  rw [Finset.ssubset_iff_of_subset]
  · exact ⟨index, by simpa using before, by simpa using taken⟩
  · intro other member
    simp only [Finset.mem_filter, Finset.mem_univ, true_and] at member ⊢
    exact member.trans (le other)

theorem ReachedIf.reached {condition : LandmarkLoop task env → Prop} {draws iterations : ℕ}
    (reachedIf : ReachedIf condition draws iterations loop) : Reached draws loop := by
  induction reachedIf with
  | start => exact .start
  | next _ _ continues isNext inductionHypothesis => exact .next inductionHypothesis continues isNext

theorem exists_consistent {condition : LandmarkLoop task env → Prop} {draws iterations : ℕ}
    (reached : ReachedIf condition draws iterations loop) :
    ∃ nonneg : ∀ index, 0 ≤ loop.costs index, Consistent loop.costs nonneg False loop.exploration :=
  consistent_of_reached False.elim False.elim reached

theorem le_base_of_reached {condition : LandmarkLoop task env → Prop} {draws iterations : ℕ}
    (reached : ReachedIf condition draws iterations loop) (index : task.Op) :
    loop.costs index ≤ task.baseCost index :=
  (reached_accounted reached.reached).le_base index

/-- Each iteration uses up an operator. -/
theorem iterations_le (positive : 0 < task.options.precision) {draws iterations : ℕ}
    (reached : ReachedIf Chargeable draws iterations loop) :
    iterations + loop.costlyCount ≤ task.relaxedOperators.length := by
  induction reached with
  | start =>
    rw [zero_add]
    exact (Finset.card_filter_le _ _).trans_eq (Finset.card_fin _)
  | @next iterations before after reachedBefore chargeable continues isNext inductionHypothesis =>
    obtain ⟨nonneg, consistent⟩ := exists_consistent reachedBefore
    obtain ⟨cost, -, isCost, -, isReduced, -⟩ := next_eq_some isNext
    have fewer := costlyCount_lt (fun index => isReduced ▸ (reduced_bounds nonneg isCost index).2)
      (next_progress positive chargeable consistent (le_base_of_reached reachedBefore) continues isNext)
    omega

/-- Runs whose iterations start from chargeable states end, and each iteration makes progress. -/
theorem terminates_if_chargeable (positive : 0 < task.options.precision) (draws : ℕ) :
    (∀ iterations, ∀ loop : LandmarkLoop task env, ReachedIf Chargeable draws iterations loop →
      iterations ≤ task.relaxedOperators.length ∧
        (loop.Continues → loop.Chargeable → ∃ after, loop.next = some after ∧ Progress loop after)) ∧
    ((∀ iterations, ∀ loop : LandmarkLoop task env, ReachedIf Chargeable draws iterations loop →
        loop.Continues → loop.Chargeable) →
      ∃ iterations, ∃ last : LandmarkLoop task env, ReachedIf Chargeable draws iterations last ∧
        ¬ last.Continues) := by
  have step (iterations : ℕ) (loop : LandmarkLoop task env)
      (reached : ReachedIf Chargeable draws iterations loop) (continues : loop.Continues)
      (chargeable : loop.Chargeable) : ∃ after, loop.next = some after ∧ Progress loop after := by
    obtain ⟨nonneg, consistent⟩ := exists_consistent reached
    have leBase := le_base_of_reached reached
    obtain ⟨after, isNext⟩ := exists_next positive chargeable consistent leBase continues
    exact ⟨after, isNext, next_progress positive chargeable consistent leBase continues isNext⟩
  refine ⟨fun iterations loop reached => ⟨?_, step iterations loop reached⟩, fun allChargeable => ?_⟩
  · have bound := iterations_le positive reached
    omega
  · by_contra endless
    push_neg at endless
    -- otherwise there are arbitrarily long runs
    have long (iterations : ℕ) :
        ∃ loop : LandmarkLoop task env, ReachedIf Chargeable draws iterations loop := by
      induction iterations with
      | zero => exact ⟨_, .start⟩
      | succ iterations inductionHypothesis =>
        obtain ⟨loop, reached⟩ := inductionHypothesis
        have continues := endless iterations loop reached
        have chargeable := allChargeable iterations loop reached continues
        obtain ⟨after, isNext, -⟩ := step iterations loop reached continues chargeable
        exact ⟨after, .next reached chargeable continues isNext⟩
    obtain ⟨loop, reached⟩ := long (task.relaxedOperators.length + 1)
    have bound := iterations_le positive reached
    omega

/-! ## Multiplicities of at least one -/

theorem one_le_of_cutMultiplicity (positive : 0 < task.options.precision)
    (ceiling : task.options.ceilingLessThanOne = true) {index : task.Op}
    {effect : RelaxedProposition} {m : ℚ} (multiplicity : cutMultiplicity index effect = some m) :
    1 ≤ m := by
  obtain ⟨isTimes, large⟩ := cutMultiplicity_eq_some.mp multiplicity
  unfold RelaxedTask.calculateNumericTimes at isTimes
  split at isTimes
  · split at isTimes
    · simp only [ceiling, if_true] at isTimes
      split at isTimes
      · linarith
      · split at isTimes
        · linarith
        · exact isTimes ▸ le_max_right _ _
    · exact isTimes.le
  · exact isTimes.le

/-- With multiplicities of at least one and base costs that are zero or reach the precision, every state
is chargeable. -/
theorem chargeable_of_ceiling (positive : 0 < task.options.precision)
    (ceiling : task.options.ceilingLessThanOne = true) (sameEdges : FollowsSameEdges task)
    (preconditions : ∀ index : task.Op, (task.op index).preconditions ≠ [])
    (baseCosts : ∀ index : task.Op, task.baseCost index = 0 ∨
      task.options.precision ≤ task.baseCost index)
    {draws : ℕ} (reached : Reached draws loop) : loop.Chargeable := by
  have costs : ∀ index, loop.costs index = 0 ∨ task.options.precision ≤ loop.costs index := by
    induction reached with
    | start => exact baseCosts
    | next _ _ isNext inductionHypothesis =>
      intro index
      obtain ⟨cost, -, -, -, isReduced, -⟩ := next_eq_some isNext
      rw [isReduced, reduced, reducedCost]
      split
      · exact inductionHypothesis index
      · split
        · exact .inl rfl
        · rename_i notSmall
          exact .inr (not_lt.mp notSmall)
  refine ⟨sameEdges, preconditions, fun index _ => (costs index).imp_right fun costly => ⟨costly, ?_⟩⟩
  intro effect _ m multiplicity
  have large := one_le_of_cutMultiplicity positive ceiling multiplicity
  exact costly.trans (le_mul_of_one_le_left (positive.le.trans costly) large)

def ceilingTask : RelaxedTask :=
  { refillTask 5 with options := { defaultOptions with ceilingLessThanOne := true } }

theorem ceiling_terminates :
    ∃ iterations, ∃ last : LandmarkLoop ceilingTask defaultEnvironment,
      ReachedIf Chargeable 0 iterations last ∧ ¬ last.Continues := by
  have positive : 0 < ceilingTask.options.precision := by decide +kernel
  have sameEdges : FollowsSameEdges ceilingTask := by
    unfold FollowsSameEdges
    decide +kernel
  refine (terminates_if_chargeable positive 0).2 fun iterations loop reached _ => ?_
  exact chargeable_of_ceiling positive rfl sameEdges (by decide +kernel) (by decide +kernel)
    reached.reached

/-! ## An iteration that charges nothing -/

section Repeats

variable {costs : task.Op → ℚ} {nonneg : ∀ index, 0 ≤ costs index} {state : Exploration task env}

theorem updateEffects_eq_self {index : task.Op} {supporter : RelaxedProposition}
    (within : ∀ effect ∈ (task.op index).effects, ∀ weight,
      queueWeight costs index effect = some weight →
        Within state.hMaxCost effect (state.costOf supporter + weight)) :
    state.updateEffects costs supporter index = state := by
  unfold updateEffects
  generalize (task.op index).effects = effects at within
  induction effects with
  | nil => rfl
  | cons effect effects inductionHypothesis =>
    rw [List.forall_mem_cons] at within
    have unchanged : state.updateQueue costs supporter effect index = state := by
      rw [updateQueue_eq]
      cases weighs : queueWeight costs index effect with
      | none => rfl
      | some weight =>
        obtain ⟨cost, labelled, le⟩ := within.1 weight weighs
        cases enqueueIfNecessary_cases state effect (state.costOf supporter + weight) with
        | inl kept => exact kept.2
        | inr lowered => exact absurd (lowered.1 cost labelled) (not_lt.mpr le)
    rw [List.foldl_cons, unchanged]
    exact inductionHypothesis within.2

/-- If no cost has changed, enqueuing the cut changes nothing. -/
theorem requeueEffects_eq_self (notRandom : task.options.useRandomPcf = false)
    (consistent : Consistent costs nonneg True state) (index : task.Op) :
    state.requeueEffects costs index = state := by
  unfold requeueEffects
  split
  · cases supports : state.hMaxSupporter index with
    | none => rfl
    | some supporter =>
      have labelled := consistent.supporterCost index supporter supports
      have isCost : state.costOf supporter = state.hMaxSupporterCost index := by
        simp [costOf, labelled]
      refine updateEffects_eq_self fun effect member weight weighs => ?_
      rw [isCost]
      exact consistent.carried index supporter supports effect member weight weighs _
        (consistent.sound trivial supporter _ labelled).nonneg (le_refl _) (by simp [notRandom])
  · rfl

theorem exploreLowered_eq_self (queueEmpty : state.entries = 0) (fuel : ℕ) :
    exploreLowered costs fuel state = state := by
  cases fuel with
  | zero => rfl
  | succ fuel =>
    unfold exploreLowered
    cases pop : env.queue.pop state.priorityQueue with
    | none => rfl
    | some top =>
      have isTop := env.queue.entries_of_pop_some _ top.1 top.2 pop
      exact absurd (isTop.symm.trans queueEmpty) (Multiset.cons_ne_zero)

variable (loop) in
/-- An iteration that charges nothing starts the next one from the same costs. -/
theorem next_repeats {nonneg : ∀ index, 0 ≤ loop.costs index}
    (notRandom : task.options.useRandomPcf = false)
    (consistent : Consistent loop.costs nonneg True loop.exploration) (asserted : loop.AssertionsHold)
    {cost : ℚ} (isCost : cutCost loop.costs loop.cut = some cost)
    (proper : ¬ ((∃ index ∈ loop.cut.map Prod.fst, (task.op index).originalOpId = none) ∨
      ∃ index ∈ requeued (loop.cut.map Prod.fst), loop.exploration.LacksSupporter index))
    (uncharged : loop.reduced cost = loop.costs) :
    loop.next = some
      { loop with landmarks := loop.landmarks ++ [(landmark loop.costs loop.cut, cost)] } := by
  have requeues (indices : List task.Op) :
      indices.foldl (requeueEffects loop.costs) loop.exploration = loop.exploration := by
    induction indices with
    | nil => rfl
    | cons index indices inductionHypothesis =>
      rw [List.foldl_cons, requeueEffects_eq_self notRandom consistent]
      exact inductionHypothesis
  unfold next
  rw [if_pos asserted, isCost]
  simp only [Option.bind_eq_bind, Option.bind_some, uncharged, firstExplorationIncremental,
    if_neg proper, requeues, exploreLowered_eq_self consistent.queue_empty]

end Repeats

/-- One operator that is cheaper than the precision and has to be applied a hundred times. -/
def tinyCostTask : RelaxedTask :=
  { refillTask 1000 with
    opBaseCost := fun _ => 1 / 2000000
    opBaseCost_nonneg := fun _ => by norm_num }

/-- The loop finds the same cut again and again and never charges it. -/
theorem tinyCost_repeats :
    ∀ iterations, ∃ loop : LandmarkLoop tinyCostTask defaultEnvironment,
      ReachedIf (fun _ => True) 0 iterations loop ∧ loop.Continues := by
  intro iterations
  have consistent : Consistent tinyCostTask.baseCost RelaxedTask.baseCost_nonneg True
      (start tinyCostTask defaultEnvironment 0).exploration :=
    (firstExploration_settled _ _ 0).consistent fun _ => rfl
  have asserted : (start tinyCostTask defaultEnvironment 0).AssertionsHold := by decide +kernel
  have isCost : cutCost tinyCostTask.baseCost (start tinyCostTask defaultEnvironment 0).cut =
      some (1 / 20000) := by
    decide +kernel
  have proper : ¬ ((∃ index ∈ (start tinyCostTask defaultEnvironment 0).cut.map Prod.fst,
        (tinyCostTask.op index).originalOpId = none) ∨
      ∃ index ∈ requeued ((start tinyCostTask defaultEnvironment 0).cut.map Prod.fst),
        (start tinyCostTask defaultEnvironment 0).exploration.LacksSupporter index) := by
    decide +kernel
  have uncharged : (start tinyCostTask defaultEnvironment 0).reduced (1 / 20000) =
      tinyCostTask.baseCost := by
    funext index
    revert index
    decide +kernel
  have continues : (start tinyCostTask defaultEnvironment 0).Continues :=
    ⟨1 / 20000, by decide +kernel, by decide +kernel⟩
  -- all states differ in their landmarks only
  have same : ∃ landmarks, ReachedIf (fun _ => True) 0 iterations
      { start tinyCostTask defaultEnvironment 0 with landmarks := landmarks } := by
    induction iterations with
    | zero => exact ⟨[], .start⟩
    | succ iterations inductionHypothesis =>
      obtain ⟨landmarks, reached⟩ := inductionHypothesis
      have isNext := next_repeats
        { start tinyCostTask defaultEnvironment 0 with landmarks := landmarks }
        rfl consistent asserted isCost proper uncharged
      exact ⟨_, .next reached trivial continues isNext⟩
  obtain ⟨landmarks, reached⟩ := same
  exact ⟨_, reached, continues⟩

theorem tinyCost_endless :
    ¬ ∃ bound, ∀ iterations, ∀ loop : LandmarkLoop tinyCostTask defaultEnvironment,
      ReachedIf (fun _ => True) 0 iterations loop → loop.Continues → iterations < bound := by
  rintro ⟨bound, bounded⟩
  obtain ⟨loop, reached, continues⟩ := tinyCost_repeats bound
  exact absurd (bounded bound loop reached continues) (lt_irrefl bound)

end LandmarkLoop

end CutPlan.Landmarks
