import CutPlan.Translate.SimplifiedSteps

/-! # Operators of the simplified task

A kept operator is applicable in the same states as before and changes them in the same way.
-/

namespace CutPlan.Translate

open CutPlan.Lib CutPlan.Sas VarValueRenaming

/-! ## Effects in canonical order -/

namespace SasPrePost

/-- The effects on one variable are ordered by this part of the key. -/
def groupKey (effect : SasPrePost) : ℕ ×ₗ ℤ ×ₗ ℤ :=
  toLex (effect.var, toLex (effect.pre, effect.post))

theorem groupKey_le {first second : SasPrePost} (le : first.key ≤ second.key) :
    first.groupKey ≤ second.groupKey := by
  simp only [key, groupKey, Prod.Lex.toLex_le_toLex] at le ⊢
  obtain varLt | ⟨sameVar, preLt | ⟨samePre, postLt | ⟨samePost, _⟩⟩⟩ := le
  · exact .inl varLt
  · exact .inr ⟨sameVar, .inl preLt⟩
  · exact .inr ⟨sameVar, .inr ⟨samePre, postLt.le⟩⟩
  · exact .inr ⟨sameVar, .inr ⟨samePre, samePost.le⟩⟩

theorem mem_canonical {effect : SasPrePost} {effects : List SasPrePost} :
    effect ∈ canonical effects ↔ effect ∈ effects := by
  rw [canonical, List.mem_mergeSort, List.mem_dedup]

theorem canonical_sorted (effects : List SasPrePost) :
    (canonical effects).Pairwise fun first second => first.groupKey ≤ second.groupKey := by
  have sorted : (canonical effects).Pairwise fun first second =>
      decide (first.key ≤ second.key) = true := by
    apply List.pairwise_mergeSort
    · intro first second third firstLe secondLe
      simp only [decide_eq_true_eq] at firstLe secondLe ⊢
      exact firstLe.trans secondLe
    · intro first second
      simp only [Bool.or_eq_true, decide_eq_true_eq]
      exact le_total _ _
  exact sorted.imp fun le => groupKey_le (of_decide_eq_true le)

def fires (values : ℕ → ℤ) (effect : SasPrePost) : Bool :=
  Condition.allHold effect.cond values

/-- The values after the effects that fire under `values`. -/
def applyAll (values : ℕ → ℤ) (effects : List SasPrePost) (start : ℕ → ℤ) : ℕ → ℤ :=
  effects.foldl
    (fun current effect =>
      if effect.fires values then Function.update current effect.var effect.post else current) start

theorem applyAll_eq_getLast (values start : ℕ → ℤ) (effects : List SasPrePost) (var : ℕ) :
    applyAll values effects start var =
      match (effects.filter fun effect => effect.fires values && effect.var = var).getLast? with
      | some effect => effect.post
      | none => start var := by
  induction effects using List.reverseRecOn with
  | nil => rfl
  | append_singleton effects effect inductionHypothesis =>
    rw [applyAll, List.foldl_append, List.filter_append]
    change (if effect.fires values then Function.update (applyAll values effects start) effect.var
      effect.post else applyAll values effects start) var = _
    cases isFiring : effect.fires values with
    | false => simpa [isFiring] using inductionHypothesis
    | true =>
      by_cases own : effect.var = var
      · subst own
        simp [isFiring]
      · simpa [isFiring, own, Function.update_of_ne (Ne.symm own)] using inductionHypothesis

theorem groupKey_le_getLast {effects : List SasPrePost}
    (sorted : effects.Pairwise fun first second => first.groupKey ≤ second.groupKey)
    {last : SasPrePost} (isLast : effects.getLast? = some last) {effect : SasPrePost}
    (member : effect ∈ effects) : effect.groupKey ≤ last.groupKey := by
  obtain ⟨before, rfl⟩ := List.getLast?_eq_some_iff.mp isLast
  rw [List.pairwise_append] at sorted
  cases List.mem_append.mp member with
  | inl early => exact sorted.2.2 effect early last (List.mem_singleton_self last)
  | inr isSame => rw [List.mem_singleton.mp isSame]

/-- Sorted lists with the same members have the same effect. -/
theorem applyAll_eq_of_sorted (values start : ℕ → ℤ) {first second : List SasPrePost}
    (firstSorted : first.Pairwise fun one other => one.groupKey ≤ other.groupKey)
    (secondSorted : second.Pairwise fun one other => one.groupKey ≤ other.groupKey)
    (same : ∀ effect, effect ∈ first ↔ effect ∈ second) :
    applyAll values first start = applyAll values second start := by
  funext var
  rw [applyAll_eq_getLast, applyAll_eq_getLast]
  have sameFiltered (effect : SasPrePost) :
      (effect ∈ first.filter fun effect => effect.fires values && effect.var = var) ↔
        effect ∈ second.filter fun effect => effect.fires values && effect.var = var := by
    simp only [List.mem_filter, same]
  have firstFiltered := firstSorted.filter fun effect => effect.fires values && effect.var = var
  have secondFiltered := secondSorted.filter fun effect => effect.fires values && effect.var = var
  revert sameFiltered firstFiltered secondFiltered
  generalize (first.filter fun effect => effect.fires values && effect.var = var) = firsts
  generalize (second.filter fun effect => effect.fires values && effect.var = var) = seconds
  intro sameFiltered firstFiltered secondFiltered
  cases firstLast : firsts.getLast? with
  | none =>
    rw [List.getLast?_eq_none_iff] at firstLast
    have none : seconds = [] := by
      rw [List.eq_nil_iff_forall_not_mem]
      intro effect member
      rw [← sameFiltered, firstLast] at member
      cases member
    rw [none]
    rfl
  | some one =>
    have isOne := List.mem_of_getLast? firstLast
    cases secondLast : seconds.getLast? with
    | none =>
      rw [List.getLast?_eq_none_iff] at secondLast
      rw [sameFiltered, secondLast] at isOne
      cases isOne
    | some other =>
      have isOther := List.mem_of_getLast? secondLast
      have oneLe := groupKey_le_getLast secondFiltered secondLast ((sameFiltered one).mp isOne)
      have otherLe := groupKey_le_getLast firstFiltered firstLast ((sameFiltered other).mpr isOther)
      have sameKey := le_antisymm oneLe otherLe
      simp only [groupKey, toLex_inj, Prod.mk.injEq] at sameKey
      exact sameKey.2.2

theorem applyAll_canonical (values start : ℕ → ℤ) {effects : List SasPrePost}
    (sorted : effects.Pairwise fun first second => first.groupKey ≤ second.groupKey) :
    applyAll values (canonical effects) start = applyAll values effects start :=
  applyAll_eq_of_sorted values start (canonical_sorted effects) sorted fun _ => mem_canonical

end SasPrePost

namespace SasTask

variable {task : SasTask} {values newValues : ℕ → ℤ}

/-! ## Applicability -/

theorem mem_getApplicabilityConditions {op : SasOperator} {fact : Condition} :
    fact ∈ op.getApplicabilityConditions ↔ fact ∈ op.prevail ∨
      ∃ effect ∈ op.prePost, effect.pre ≠ -1 ∧ fact = { var := effect.var, val := effect.pre } := by
  simp only [SasOperator.getApplicabilityConditions, sortFacts, List.mem_mergeSort, List.mem_dedup,
    List.mem_append, List.mem_map, List.mem_filter, decide_eq_true_eq]
  apply or_congr_right
  constructor
  · rintro ⟨effect, ⟨isEffect, hasPre⟩, rfl⟩
    exact ⟨effect, isEffect, hasPre, rfl⟩
  · rintro ⟨effect, isEffect, hasPre, rfl⟩
    exact ⟨effect, ⟨isEffect, hasPre⟩, rfl⟩

theorem isApplicable_iff {op : SasOperator} {state : Preprocess.State} :
    op.meaning.isApplicable state = true ↔
      (∀ fact ∈ op.prevail, state.values fact.var = fact.val) ∧
        ∀ effect ∈ op.prePost, effect.pre = -1 ∨ state.values effect.var = effect.pre := by
  simp only [Preprocess.Operator.isApplicable, SasOperator.meaning, SasPrePost.meaning,
    Condition.allHold, Bool.and_eq_true, List.all_eq_true, List.forall_mem_map, Bool.or_eq_true,
    decide_eq_true_eq]

theorem isApplicable_eq_allHold (op : SasOperator) (state : Preprocess.State) :
    op.meaning.isApplicable state =
      Condition.allHold op.getApplicabilityConditions state.values := by
  rw [Bool.eq_iff_iff, isApplicable_iff, Condition.allHold, List.all_eq_true]
  simp only [decide_eq_true_eq, mem_getApplicabilityConditions]
  constructor
  · rintro ⟨prevail, pres⟩ fact (member | ⟨effect, isEffect, hasPre, rfl⟩)
    · exact prevail fact member
    · exact (pres effect isEffect).resolve_left hasPre
  · intro hold
    refine ⟨fun fact member => hold fact (.inl member), fun effect isEffect => ?_⟩
    by_cases hasPre : effect.pre = -1
    · exact .inl hasPre
    · exact .inr (hold _ (.inr ⟨effect, isEffect, hasPre, rfl⟩))

theorem ValidOperator.applicabilityFacts {op : SasOperator} (valid : task.ValidOperator op) :
    ∀ fact ∈ op.getApplicabilityConditions, task.ValidFact fact := by
  intro fact member
  obtain isPrevail | ⟨effect, isEffect, hasPre, rfl⟩ := mem_getApplicabilityConditions.mp member
  · exact valid.prevail.facts fact isPrevail
  · exact valid.pre effect isEffect hasPre

theorem ValidCondition.consistent {condition : List Condition} (valid : task.ValidCondition condition)
    {first second : Condition} (isFirst : first ∈ condition) (isSecond : second ∈ condition)
    (same : first.var = second.var) : first = second :=
  List.inj_on_of_nodup_map valid.distinct isFirst isSecond same

theorem ValidOperator.consistent {op : SasOperator} (valid : task.ValidOperator op)
    {first second : Condition} (isFirst : first ∈ op.getApplicabilityConditions)
    (isSecond : second ∈ op.getApplicabilityConditions) (same : first.var = second.var) :
    first.val = second.val := by
  rw [mem_getApplicabilityConditions] at isFirst isSecond
  obtain firstPrevail | ⟨one, isOne, _, rfl⟩ := isFirst
  · obtain secondPrevail | ⟨other, isOther, _, rfl⟩ := isSecond
    · rw [valid.prevail.consistent firstPrevail secondPrevail same]
    · exact absurd same (valid.notPrevailed other isOther first firstPrevail)
  · obtain secondPrevail | ⟨other, isOther, _, rfl⟩ := isSecond
    · exact absurd same.symm (valid.notPrevailed one isOne second secondPrevail)
    · exact valid.samePre one isOne other isOther same

/-! ## Effects that fire -/

theorem getEffectivePre_of_hold (var : ℕ) {conditions effectConditions : List Condition}
    (hold : Condition.allHold conditions values = true)
    (effectHold : Condition.allHold effectConditions values = true) :
    ∃ pre, getEffectivePre var conditions effectConditions = some pre ∧
      (pre = -1 ∨ pre = values var) := by
  simp only [Condition.allHold, List.all_eq_true, decide_eq_true_eq] at hold effectHold
  have start : requiredValue var conditions = -1 ∨ requiredValue var conditions = values var := by
    unfold requiredValue
    cases found : conditions.find? fun condition => condition.var = var with
    | none => exact .inl rfl
    | some condition =>
      have isVar : condition.var = var := by simpa using List.find?_some found
      exact .inr (isVar ▸ (hold condition (List.mem_of_find?_eq_some found)).symm)
  unfold getEffectivePre
  revert start
  generalize requiredValue var conditions = result
  intro start
  induction effectConditions generalizing result with
  | nil => exact ⟨result, rfl, start⟩
  | cons condition effectConditions inductionHypothesis =>
    rw [List.forall_mem_cons] at effectHold
    simp only [List.foldlM_cons]
    by_cases own : condition.var = var
    · have isValue : condition.val = values var := own ▸ effectHold.1.symm
      by_cases unknown : result = -1
      · rw [if_pos own, if_pos unknown]
        exact inductionHypothesis effectHold.2 _ (.inr isValue)
      · have known : result = values var := start.resolve_left unknown
        rw [if_pos own, if_neg unknown, if_neg (not_not_intro (isValue.trans known.symm))]
        exact inductionHypothesis effectHold.2 _ start
    · rw [if_neg own]
      exact inductionHypothesis effectHold.2 _ start

/-- An effect that can fire in reached values leads to a reached value. -/
theorem Valid.reaches_post (valid : task.Valid) {op : SasOperator} (isOp : op ∈ task.operators)
    {effect : SasPrePost} (isEffect : effect ∈ op.prePost)
    (reached : ∀ var < task.ranges.length, task.Reaches var (values var))
    (applicable : Condition.allHold op.getApplicabilityConditions values = true)
    (fires : Condition.allHold effect.cond values = true) : task.Reaches effect.var effect.post := by
  have isVar := ((valid.operators op isOp).post effect isEffect).mem_domain.1
  obtain ⟨pre, isPre, isUnknown | isValue⟩ := getEffectivePre_of_hold effect.var
    applicable fires
  all_goals
    have subset : ∀ arc ∈ task.addArc effect.var pre effect.post, arc ∈ task.arcs := by
      intro arc member
      refine List.mem_append_left _ (List.mem_append_left _ (List.mem_flatMap.mpr ⟨op, isOp, ?_⟩))
      refine List.mem_flatMap.mpr ⟨effect, isEffect, ?_⟩
      rw [isPre]
      exact member
  · subst isUnknown
    exact valid.reaches_unconditional isVar (reached effect.var isVar) subset
  · by_cases unknown : pre = -1
    · subst unknown
      exact valid.reaches_unconditional isVar (reached effect.var isVar) subset
    · refine valid.reaches_arc isVar (reached effect.var isVar) (subset _ ?_)
      rw [addArc, if_neg unknown, List.mem_singleton, isValue]

/-! ## Translated effects -/

/-- When its operator is applied, the effect does not fire or its variable has one value only. -/
def NeverChanges (task : SasTask) (op : SasOperator) (effect : SasPrePost) : Prop :=
  ∀ values, (∀ var < task.ranges.length, task.Reaches var (values var)) →
    Condition.allHold op.getApplicabilityConditions values = true →
    Condition.allHold effect.cond values = true → ¬ task.Varies effect.var

/-- The effect of the simplified task in place of an effect. -/
structure Renamed (task : SasTask) (effect newEffect : SasPrePost) : Prop where
  varies : task.Varies effect.var
  reached : task.Reaches effect.var effect.post
  preReached : effect.pre ≠ -1 → task.Reaches effect.var effect.pre
  var : newEffect.var = task.newVar effect.var
  pre : newEffect.pre = if effect.pre = -1 then -1 else (task.newValue effect.var effect.pre : ℤ)
  post : newEffect.post = task.newValue effect.var effect.post
  cond : task.numbering.convertPairs effect.cond = .ok newEffect.cond

/-- The values that facts require, and the initial values elsewhere. -/
def requiredValues (task : SasTask) (facts : List Condition) (var : ℕ) : ℤ :=
  match facts.find? fun fact => fact.var = var with
  | some fact => fact.val
  | none => task.init.getD var 0

theorem requiredValues_hold {facts : List Condition}
    (consistent : ∀ first ∈ facts, ∀ second ∈ facts, first.var = second.var →
      first.val = second.val) {fact : Condition} (member : fact ∈ facts) :
    task.requiredValues facts fact.var = fact.val := by
  unfold requiredValues
  cases found : facts.find? fun other => other.var = fact.var with
  | none =>
    have absent := List.find?_eq_none.mp found fact member
    simp at absent
  | some other =>
    have same : other.var = fact.var := by simpa using List.find?_some found
    exact consistent other (List.mem_of_find?_eq_some found) fact member same

theorem Valid.requiredValues_reached (valid : task.Valid) {facts : List Condition}
    (reached : ∀ fact ∈ facts, task.Reaches fact.var fact.val) :
    ∀ var < task.ranges.length, task.Reaches var (task.requiredValues facts var) := by
  intro var isVar
  unfold requiredValues
  cases found : facts.find? fun other => other.var = var with
  | none => exact valid.reaches_init isVar
  | some fact =>
    have same : fact.var = var := by simpa using List.find?_some found
    subst same
    exact reached fact (List.mem_of_find?_eq_some found)

theorem clash_eq_true {newCond conditions : List Condition} :
    clash newCond conditions = true ↔
      ∃ fact ∈ newCond, ∃ known ∈ conditions, known.var = fact.var ∧ known.val ≠ fact.val := by
  simp [clash]

/-- Facts clash after the conversion if they clash before it. -/
theorem Valid.clash_iff (valid : task.Valid) {facts cond newFacts newCond : List Condition}
    (validFacts : ∀ fact ∈ facts, task.ValidFact fact)
    (validCond : ∀ fact ∈ cond, task.ValidFact fact)
    (converts : task.numbering.convertPairs facts = .ok newFacts)
    (condConverts : task.numbering.convertPairs cond = .ok newCond) :
    clash newCond newFacts = true ↔
      ∃ fact ∈ cond, ∃ known ∈ facts, known.var = fact.var ∧ known.val ≠ fact.val := by
  obtain ⟨reached, isNew⟩ := valid.convertPairs_ok validFacts converts
  obtain ⟨condReached, isNewCond⟩ := valid.convertPairs_ok validCond condConverts
  rw [clash_eq_true]
  constructor
  · rintro ⟨newFact, isFact, newKnown, isKnown, sameVar, different⟩
    obtain ⟨fact, member, varies, rfl⟩ := (isNewCond newFact).mp isFact
    obtain ⟨known, knownMember, knownVaries, rfl⟩ := (isNew newKnown).mp isKnown
    have same : known.var = fact.var := (valid.newVar_inj (validFacts known knownMember).mem_domain.1
      (validCond fact member).mem_domain.1 knownVaries varies).mp sameVar
    refine ⟨fact, member, known, knownMember, same, fun sameVal => different ?_⟩
    show (task.newValue known.var known.val : ℤ) = task.newValue fact.var fact.val
    rw [same, sameVal]
  · rintro ⟨fact, member, known, knownMember, same, different⟩
    have isVar := (validCond fact member).mem_domain.1
    have factReached := condReached fact member
    have knownReached : task.Reaches fact.var known.val := same ▸ reached known knownMember
    have varies := varies_of_ne knownReached factReached different
    refine ⟨_, (isNewCond _).mpr ⟨fact, member, varies, rfl⟩, _,
      (isNew _).mpr ⟨known, knownMember, same ▸ varies, rfl⟩, congrArg task.newVar same, ?_⟩
    show (task.newValue known.var known.val : ℤ) ≠ task.newValue fact.var fact.val
    rw [same, Ne, Int.natCast_inj, valid.newValue_inj isVar knownReached factReached]
    exact different

theorem ValidCondition.holds_of_no_clash {op : SasOperator} (validOp : task.ValidOperator op)
    {cond : List Condition} (validCond : task.ValidCondition cond)
    (noClash : ¬ ∃ fact ∈ cond, ∃ known ∈ op.getApplicabilityConditions,
      known.var = fact.var ∧ known.val ≠ fact.val) {fact : Condition}
    (member : fact ∈ op.getApplicabilityConditions ++ cond) :
    task.requiredValues (op.getApplicabilityConditions ++ cond) fact.var = fact.val := by
  refine requiredValues_hold (fun first isFirst second isSecond same => ?_) member
  rw [List.mem_append] at isFirst isSecond
  by_contra different
  cases isFirst with
  | inl firstKnown =>
    cases isSecond with
    | inl secondKnown => exact different (validOp.consistent firstKnown secondKnown same)
    | inr secondCond => exact noClash ⟨second, secondCond, first, firstKnown, same, different⟩
  | inr firstCond =>
    cases isSecond with
    | inl secondKnown =>
      exact noClash ⟨first, firstCond, second, secondKnown, same.symm, Ne.symm different⟩
    | inr secondCond => exact different (by rw [validCond.consistent firstCond secondCond same])

theorem Valid.neverChanges_of_error (valid : task.Valid) {op : SasOperator} {effect : SasPrePost}
    (validCond : task.ValidCondition effect.cond) {stop : Stop}
    (stops : task.numbering.convertPairs effect.cond = .error stop) :
    task.NeverChanges op effect := by
  intro values reached _ fires
  rw [valid.allHold_impossible reached validCond.facts stops] at fires
  cases fires

theorem neverChanges_of_clash {op : SasOperator} {effect : SasPrePost} {fact known : Condition}
    (isFact : fact ∈ effect.cond) (isKnown : known ∈ op.getApplicabilityConditions)
    (same : known.var = fact.var) (different : known.val ≠ fact.val) :
    task.NeverChanges op effect := by
  intro values _ applicable fires
  simp only [Condition.allHold, List.all_eq_true, decide_eq_true_eq] at applicable fires
  have required := fires fact isFact
  rw [← same, applicable known isKnown] at required
  exact absurd required different

/-- The effect can fire unless its conditions clash with those of the operator. -/
theorem Valid.reaches_of_no_clash (valid : task.Valid) {op : SasOperator}
    (isOp : op ∈ task.operators) {effect : SasPrePost} (isEffect : effect ∈ op.prePost)
    (reached : ∀ fact ∈ op.getApplicabilityConditions, task.Reaches fact.var fact.val)
    (condReached : ∀ fact ∈ effect.cond, task.Reaches fact.var fact.val)
    (noClash : ¬ ∃ fact ∈ effect.cond, ∃ known ∈ op.getApplicabilityConditions,
      known.var = fact.var ∧ known.val ≠ fact.val) : task.Reaches effect.var effect.post := by
  have validOp := valid.operators op isOp
  let facts := op.getApplicabilityConditions ++ effect.cond
  have holds : ∀ fact ∈ facts, task.requiredValues facts fact.var = fact.val :=
    fun fact member => (validOp.conds effect isEffect).holds_of_no_clash validOp noClash member
  have factsReached : ∀ fact ∈ facts, task.Reaches fact.var fact.val := fun fact member =>
    (List.mem_append.mp member).elim (reached fact) (condReached fact)
  refine valid.reaches_post isOp isEffect (valid.requiredValues_reached factsReached) ?_ ?_
  · simp only [Condition.allHold, List.all_eq_true, decide_eq_true_eq]
    exact fun fact member => holds fact (List.mem_append_left _ member)
  · simp only [Condition.allHold, List.all_eq_true, decide_eq_true_eq]
    exact fun fact member => holds fact (List.mem_append_right _ member)

theorem Valid.translatePair_varying (valid : task.Valid) {fact : Condition}
    (validFact : task.ValidFact fact) (reached : task.Reaches fact.var fact.val)
    (varies : task.Varies fact.var) : task.numbering.translatePair fact =
      (some (task.newVar fact.var), .value (task.newValue fact.var fact.val)) := by
  have translated := valid.translated validFact
  generalize task.numbering.translatePair fact = result at translated
  cases translated with
  | unreached _ unreached => exact absurd reached unreached
  | only _ constant => exact absurd varies constant
  | kept => rfl

theorem Valid.translatePair_constant (valid : task.Valid) {fact : Condition}
    (validFact : task.ValidFact fact) (reached : task.Reaches fact.var fact.val)
    (constant : ¬ task.Varies fact.var) :
    task.numbering.translatePair fact = (none, .alwaysTrue) := by
  have translated := valid.translated validFact
  generalize task.numbering.translatePair fact = result at translated
  cases translated with
  | unreached _ unreached => exact absurd reached unreached
  | only => rfl
  | kept _ varies => exact absurd varies constant

theorem Valid.translatePair_unreached (valid : task.Valid) {fact : Condition}
    (validFact : task.ValidFact fact) (unreached : ¬ task.Reaches fact.var fact.val) :
    (task.numbering.translatePair fact).2 = .alwaysFalse := by
  have translated := valid.translated validFact
  generalize task.numbering.translatePair fact = result at translated
  cases translated with
  | unreached => rfl
  | only reached => exact absurd reached unreached
  | kept reached => exact absurd reached unreached

/-- The effect of an operator whose conditions are converted either never changes a value or is renamed;
no assertion fails. -/
theorem Valid.translatePrePost_ok (valid : task.Valid) {op : SasOperator}
    (isOp : op ∈ task.operators) {conditions : List Condition}
    (converts : task.numbering.convertPairs op.getApplicabilityConditions = .ok conditions)
    {effect : SasPrePost} (isEffect : effect ∈ op.prePost) :
    task.numbering.translatePrePost conditions effect = .ok none ∧ task.NeverChanges op effect ∨
      ∃ newEffect, task.numbering.translatePrePost conditions effect = .ok (some newEffect) ∧
        task.Renamed effect newEffect := by
  have validOp := valid.operators op isOp
  have validCond := validOp.conds effect isEffect
  have validPost := validOp.post effect isEffect
  have isVar := validPost.mem_domain.1
  have knownReached := (valid.convertPairs_ok validOp.applicabilityFacts converts).1
  have preReached (hasPre : effect.pre ≠ -1) : task.Reaches effect.var effect.pre :=
    knownReached { var := effect.var, val := effect.pre }
      (mem_getApplicabilityConditions.mpr (.inr ⟨effect, isEffect, hasPre, rfl⟩))
  by_cases postReached : task.Reaches effect.var effect.post
  · by_cases varies : task.Varies effect.var
    · have newPost := valid.translatePair_varying validPost postReached varies
      have newPre (hasPre : effect.pre ≠ -1) := valid.translatePair_varying
        (validOp.pre effect isEffect hasPre) (preReached hasPre) varies
      have differs (hasPre : effect.pre ≠ -1) :
          task.newValue effect.var effect.pre ≠ task.newValue effect.var effect.post := by
        rw [Ne, valid.newValue_inj isVar (preReached hasPre) postReached]
        exact validOp.changes effect isEffect
      unfold translatePrePost
      cases condConverts : task.numbering.convertPairs effect.cond with
      | error stop =>
        left
        obtain ⟨rfl, _⟩ := valid.convertPairs_error validCond.facts condConverts
        refine ⟨?_, valid.neverChanges_of_error validCond condConverts⟩
        by_cases hasPre : effect.pre = -1
        · simp [newPost, hasPre]
        · simp [newPost, hasPre, newPre hasPre, differs hasPre]
      | ok newCond =>
        have clashIff := valid.clash_iff validOp.applicabilityFacts validCond.facts converts
          condConverts
        by_cases clashes : clash newCond conditions = true
        · left
          obtain ⟨fact, isFact, known, isKnown, same, different⟩ := clashIff.mp clashes
          refine ⟨?_, neverChanges_of_clash isFact isKnown same different⟩
          by_cases hasPre : effect.pre = -1
          · simp [newPost, hasPre, clashes]
          · simp [newPost, hasPre, newPre hasPre, differs hasPre, clashes]
        · right
          refine ⟨{ var := task.newVar effect.var
                    pre := if effect.pre = -1 then -1 else (task.newValue effect.var effect.pre : ℤ)
                    post := task.newValue effect.var effect.post
                    cond := newCond },
            ?_, varies, postReached, preReached, rfl, rfl, rfl, condConverts⟩
          by_cases hasPre : effect.pre = -1
          · simp [newPost, hasPre, clashes]
          · simp [newPost, hasPre, newPre hasPre, differs hasPre, clashes]
    · left
      have newPost := valid.translatePair_constant validPost postReached varies
      exact ⟨by simp [translatePrePost, newPost], fun _ _ _ _ => varies⟩
  · left
    have newPost := valid.translatePair_unreached validPost postReached
    have newPre (hasPre : effect.pre ≠ -1) : (task.numbering.translatePair
        { var := effect.var, val := effect.pre }).2 ≠ .alwaysFalse := by
      have validPre := validOp.pre effect isEffect hasPre
      by_cases varies : task.Varies effect.var
      · simp [valid.translatePair_varying validPre (preReached hasPre) varies]
      · simp [valid.translatePair_constant validPre (preReached hasPre) varies]
    unfold translatePrePost
    cases condConverts : task.numbering.convertPairs effect.cond with
    | error stop =>
      obtain ⟨rfl, _⟩ := valid.convertPairs_error validCond.facts condConverts
      refine ⟨?_, valid.neverChanges_of_error validCond condConverts⟩
      by_cases hasPre : effect.pre = -1
      · simp [newPost, hasPre]
      · simp [newPost, hasPre, newPre hasPre]
    | ok newCond =>
      have clashIff := valid.clash_iff validOp.applicabilityFacts validCond.facts converts
        condConverts
      have condReached := (valid.convertPairs_ok validCond.facts condConverts).1
      by_cases clashes : clash newCond conditions = true
      · obtain ⟨fact, isFact, known, isKnown, same, different⟩ := clashIff.mp clashes
        refine ⟨?_, neverChanges_of_clash isFact isKnown same different⟩
        by_cases hasPre : effect.pre = -1
        · simp [newPost, hasPre, clashes]
        · simp [newPost, hasPre, newPre hasPre, clashes]
      · exact absurd (valid.reaches_of_no_clash isOp isEffect knownReached condReached
          fun exists' => clashes (clashIff.mpr exists')) postReached

end SasTask

end CutPlan.Translate
