import CutPlan.Translate.SimplifiedOperators

/-! # Operators that are kept

Kept operators are applicable in the same states and lead from corresponding to corresponding states, as
far as the conditions of their numeric effects keep their numbers; removed operators do nothing.
-/

namespace CutPlan.Translate

open CutPlan.Lib CutPlan.Sas VarValueRenaming

namespace SasTask

variable {task simplified : SasTask} {values newValues : ℕ → ℤ}

/-! ## Lists of effects -/

/-- The effects that are renamed, in their order; the others never change a value. -/
inductive RenamedAll (task : SasTask) (op : SasOperator) : List SasPrePost → List SasPrePost → Prop
  | nil : RenamedAll task op [] []
  | dropped {effect : SasPrePost} {effects newEffects : List SasPrePost} :
      task.NeverChanges op effect → RenamedAll task op effects newEffects →
      RenamedAll task op (effect :: effects) newEffects
  | renamed {effect newEffect : SasPrePost} {effects newEffects : List SasPrePost} :
      task.Renamed effect newEffect → RenamedAll task op effects newEffects →
      RenamedAll task op (effect :: effects) (newEffect :: newEffects)

theorem Valid.translatePrePosts_ok (valid : task.Valid) {op : SasOperator}
    (isOp : op ∈ task.operators) {conditions : List Condition}
    (converts : task.numbering.convertPairs op.getApplicabilityConditions = .ok conditions)
    {effects : List SasPrePost} (areEffects : ∀ effect ∈ effects, effect ∈ op.prePost) :
    ∃ newEffects, task.numbering.translatePrePosts conditions effects = .ok newEffects ∧
      task.RenamedAll op effects newEffects := by
  induction effects with
  | nil => exact ⟨[], rfl, .nil⟩
  | cons effect effects inductionHypothesis =>
    rw [List.forall_mem_cons] at areEffects
    obtain ⟨newEffects, translates, renamed⟩ := inductionHypothesis areEffects.2
    obtain ⟨first, never⟩ | ⟨newEffect, first, isRenamed⟩ :=
      valid.translatePrePost_ok isOp converts areEffects.1
    · refine ⟨newEffects, ?_, .dropped never renamed⟩
      rw [translatePrePosts, first, translates]
      rfl
    · refine ⟨newEffect :: newEffects, ?_, .renamed isRenamed renamed⟩
      rw [translatePrePosts, first, translates]
      rfl

theorem RenamedAll.source {op : SasOperator} {effects newEffects : List SasPrePost}
    (all : task.RenamedAll op effects newEffects) {newEffect : SasPrePost}
    (member : newEffect ∈ newEffects) : ∃ effect ∈ effects, task.Renamed effect newEffect := by
  induction all with
  | nil => cases member
  | dropped _ _ inductionHypothesis =>
    obtain ⟨effect, isEffect, renamed⟩ := inductionHypothesis member
    exact ⟨effect, List.mem_cons_of_mem _ isEffect, renamed⟩
  | renamed isRenamed _ inductionHypothesis =>
    cases member with
    | head => exact ⟨_, List.mem_cons_self, isRenamed⟩
    | tail _ later =>
      obtain ⟨effect, isEffect, renamed⟩ := inductionHypothesis later
      exact ⟨effect, List.mem_cons_of_mem _ isEffect, renamed⟩

theorem RenamedAll.target {op : SasOperator} {effects newEffects : List SasPrePost}
    (all : task.RenamedAll op effects newEffects) {effect : SasPrePost} (member : effect ∈ effects) :
    task.NeverChanges op effect ∨ ∃ newEffect ∈ newEffects, task.Renamed effect newEffect := by
  induction all with
  | nil => cases member
  | dropped never _ inductionHypothesis =>
    cases member with
    | head => exact .inl never
    | tail _ later => exact inductionHypothesis later
  | renamed isRenamed _ inductionHypothesis =>
    cases member with
    | head => exact .inr ⟨_, List.mem_cons_self, isRenamed⟩
    | tail _ later =>
      obtain never | ⟨newEffect, isNew, renamed⟩ := inductionHypothesis later
      · exact .inl never
      · exact .inr ⟨newEffect, List.mem_cons_of_mem _ isNew, renamed⟩

/-- The renaming keeps the order of the effects. -/
theorem Renamed.groupKey_le (valid : task.Valid) {first second newFirst newSecond : SasPrePost}
    (isVar : first.var < task.ranges.length) (firstRenamed : task.Renamed first newFirst)
    (secondRenamed : task.Renamed second newSecond)
    (le : first.groupKey ≤ second.groupKey) : newFirst.groupKey ≤ newSecond.groupKey := by
  simp only [SasPrePost.groupKey, Prod.Lex.toLex_le_toLex] at le ⊢
  obtain varLt | ⟨sameVar, preLt | ⟨samePre, postLe⟩⟩ := le
  · left
    rw [firstRenamed.var, secondRenamed.var]
    exact valid.newVar_lt varLt isVar firstRenamed.varies
  · right
    refine ⟨by rw [firstRenamed.var, secondRenamed.var, sameVar], .inl ?_⟩
    rw [firstRenamed.pre, secondRenamed.pre]
    by_cases secondPre : second.pre = -1
    · by_cases firstPre : first.pre = -1
      · omega
      · have reached := valid.reaches_within isVar (firstRenamed.preReached firstPre)
        have nonneg := (mem_domain.mp reached).1
        omega
    · by_cases firstPre : first.pre = -1
      · rw [if_pos firstPre, if_neg secondPre]
        omega
      · rw [if_neg firstPre, if_neg secondPre, ← sameVar]
        exact Int.ofNat_lt.mpr (valid.newValue_lt isVar preLt (firstRenamed.preReached firstPre))
  · right
    refine ⟨by rw [firstRenamed.var, secondRenamed.var, sameVar], .inr ⟨?_, ?_⟩⟩
    · rw [firstRenamed.pre, secondRenamed.pre, samePre, sameVar]
    · rw [firstRenamed.post, secondRenamed.post, ← sameVar, Int.ofNat_le]
      obtain lt | same := postLe.lt_or_eq
      · exact (valid.newValue_lt isVar lt firstRenamed.reached).le
      · rw [same]

theorem RenamedAll.sorted (valid : task.Valid) {op : SasOperator} (validOp : task.ValidOperator op)
    {effects newEffects : List SasPrePost} (areEffects : ∀ effect ∈ effects, effect ∈ op.prePost)
    (all : task.RenamedAll op effects newEffects)
    (sorted : effects.Pairwise fun first second => first.groupKey ≤ second.groupKey) :
    newEffects.Pairwise fun first second => first.groupKey ≤ second.groupKey := by
  induction all with
  | nil => exact .nil
  | dropped _ _ inductionHypothesis =>
    rw [List.forall_mem_cons] at areEffects
    exact inductionHypothesis areEffects.2 (List.pairwise_cons.mp sorted).2
  | renamed isRenamed rest inductionHypothesis =>
    rw [List.forall_mem_cons] at areEffects
    rw [List.pairwise_cons] at sorted
    refine List.pairwise_cons.mpr ⟨fun newSecond member => ?_,
      inductionHypothesis areEffects.2 sorted.2⟩
    obtain ⟨second, isSecond, secondRenamed⟩ := rest.source member
    exact Renamed.groupKey_le valid (validOp.post _ areEffects.1).mem_domain.1 isRenamed
      secondRenamed (sorted.1 second isSecond)

/-- The renamed effects lead from matching to matching values. -/
theorem RenamedAll.applyAll (valid : task.Valid) {op : SasOperator} (isOp : op ∈ task.operators)
    {effects newEffects : List SasPrePost} (areEffects : ∀ effect ∈ effects, effect ∈ op.prePost)
    (all : task.RenamedAll op effects newEffects) (matched : task.Matches values newValues)
    (applicable : Condition.allHold op.getApplicabilityConditions values = true)
    {start newStart : ℕ → ℤ} (startMatched : task.Matches start newStart) :
    task.Matches (SasPrePost.applyAll values effects start)
      (SasPrePost.applyAll newValues newEffects newStart) := by
  have validOp := valid.operators op isOp
  induction all generalizing start newStart with
  | nil => exact startMatched
  | @dropped effect effects newEffects never rest inductionHypothesis =>
    rw [List.forall_mem_cons] at areEffects
    have unchanged : (if effect.fires values then Function.update start effect.var effect.post
        else start) = start := by
      split
      · rename_i fires
        exact valid.match_update_constant startMatched
          (validOp.post effect areEffects.1).mem_domain.1
          (valid.reaches_post isOp areEffects.1 matched.reached applicable fires)
          (never values matched.reached applicable fires)
      · rfl
    rw [SasPrePost.applyAll, List.foldl_cons, unchanged]
    exact inductionHypothesis areEffects.2 startMatched
  | @renamed effect newEffect effects newEffects isRenamed rest inductionHypothesis =>
    rw [List.forall_mem_cons] at areEffects
    have sameFiring : newEffect.fires newValues = effect.fires values :=
      valid.allHold_converted matched (validOp.conds effect areEffects.1).facts isRenamed.cond
    rw [SasPrePost.applyAll, SasPrePost.applyAll, List.foldl_cons, List.foldl_cons, sameFiring]
    refine inductionHypothesis areEffects.2 ?_
    split
    · rw [isRenamed.var, isRenamed.post]
      exact valid.match_update startMatched (validOp.post effect areEffects.1).mem_domain.1
        isRenamed.reached isRenamed.varies
    · exact startMatched

/-! ## Operators -/

/-- A condition with the same number before and after the renaming: no variable before its own is
removed, and neither is a value up to its own. -/
def KeepsNumber (task : SasTask) (fact : Condition) : Prop :=
  (∀ var ≤ fact.var, task.Varies var) ∧ ∀ value, 0 ≤ value → value ≤ fact.val →
    task.Reaches fact.var value

/-- The conditions of the numeric effects keep their numbers. -/
def NumericConditionsKeepNumbers (task : SasTask) (op : SasOperator) : Prop :=
  ∀ effect ∈ op.assignEffects, ∀ fact ∈ effect.cond, task.ValidFact fact ∧ task.KeepsNumber fact

theorem countP_take_of_all {α : Type} {keep : α → Bool} {items : List α} {count : ℕ}
    (all : ∀ index < count, ∃ item, items[index]? = some item ∧ keep item = true) :
    (items.take count).countP keep = count := by
  induction count with
  | zero => simp
  | succ count inductionHypothesis =>
    obtain ⟨item, isItem, kept⟩ := all count (Nat.lt_succ_self count)
    rw [List.take_add_one, List.countP_append,
      inductionHypothesis fun index small => all index (by omega), isItem]
    simp [kept]

theorem KeepsNumber.newVar (valid : task.Valid) {fact : Condition} (validFact : task.ValidFact fact)
    (keeps : task.KeepsNumber fact) : task.newVar fact.var = fact.var := by
  refine countP_take_of_all fun var small => ?_
  have isVar := small.trans validFact.mem_domain.1
  exact ⟨task.dtg var, valid.buildDtgs_getElem? isVar, keeps.1 var small.le⟩

theorem KeepsNumber.newValue {fact : Condition} (validFact : task.ValidFact fact)
    (keeps : task.KeepsNumber fact) : (task.newValue fact.var fact.val : ℤ) = fact.val := by
  obtain ⟨nonneg, small⟩ := mem_domain.mp validFact.mem_domain.2
  have count : task.newValue fact.var fact.val = fact.val.toNat := by
    refine countP_take_of_all fun index less => ⟨index, ?_, ?_⟩
    · have member : (index : ℤ) ∈ domain (task.dtg fact.var).size := mem_domain.mpr (by omega)
      simpa using domain_getElem? member
    · exact decide_eq_true (keeps.2 index (by omega) (by omega))
  rw [count, Int.toNat_of_nonneg nonneg]

/-- Conditions that keep their numbers are read correctly in the simplified task. -/
theorem Valid.allHold_kept (valid : task.Valid) (matched : task.Matches values newValues)
    {facts : List Condition}
    (keep : ∀ fact ∈ facts, task.ValidFact fact ∧ task.KeepsNumber fact) :
    Condition.allHold facts newValues = Condition.allHold facts values := by
  rw [Bool.eq_iff_iff, Condition.allHold, Condition.allHold, List.all_eq_true, List.all_eq_true]
  refine forall₂_congr fun fact member => ?_
  obtain ⟨validFact, keeps⟩ := keep fact member
  have nonneg := (mem_domain.mp validFact.mem_domain.2).1
  have renamed := valid.renamed_iff matched validFact.mem_domain.1 (keeps.2 _ nonneg le_rfl)
    (keeps.1 _ le_rfl)
  rw [keeps.newVar valid validFact, keeps.newValue validFact] at renamed
  simp only [decide_eq_true_eq, renamed]

theorem Valid.translateOperator_cases (valid : task.Valid) {op : SasOperator}
    (isOp : op ∈ task.operators) :
    task.numbering.translateOperator op = .ok none ∧
        (∃ fact ∈ op.getApplicabilityConditions, ¬ task.Reaches fact.var fact.val) ∨
      ∃ conditions newEffects,
        task.numbering.convertPairs op.getApplicabilityConditions = .ok conditions ∧
        task.RenamedAll op op.prePost newEffects ∧
        task.numbering.translateOperator op =
          if newEffects.isEmpty && op.assignEffects.isEmpty then .ok none
          else .ok (some (.make op.name
            (conditions.filter fun fact => newEffects.all fun effect => effect.var ≠ fact.var)
            newEffects op.assignEffects op.cost)) := by
  have validOp := valid.operators op isOp
  unfold translateOperator
  cases converts : task.numbering.convertPairs op.getApplicabilityConditions with
  | error stop =>
    obtain ⟨rfl, unreached⟩ := valid.convertPairs_error validOp.applicabilityFacts converts
    exact .inl ⟨rfl, unreached⟩
  | ok conditions =>
    right
    obtain ⟨newEffects, translates, renamed⟩ :=
      valid.translatePrePosts_ok isOp converts fun _ isEffect => isEffect
    have same : op.assignEffects.filterMap task.numbering.translateAssignEffect =
        op.assignEffects := List.filterMap_some
    refine ⟨conditions, newEffects, rfl, renamed, ?_⟩
    simp only [translates, same, bind, Except.bind]
    rfl

/-- What the translation of an operator that is kept has computed. -/
theorem Valid.translateOperator_some (valid : task.Valid) {op newOp : SasOperator}
    (isOp : op ∈ task.operators) (kept : task.numbering.translateOperator op = .ok (some newOp)) :
    ∃ conditions newEffects,
      task.numbering.convertPairs op.getApplicabilityConditions = .ok conditions ∧
      task.RenamedAll op op.prePost newEffects ∧
      newOp = .make op.name
        (conditions.filter fun fact => newEffects.all fun effect => effect.var ≠ fact.var)
        newEffects op.assignEffects op.cost := by
  obtain ⟨removed, _⟩ | ⟨conditions, newEffects, converts, renamed, result⟩ :=
    valid.translateOperator_cases isOp
  · rw [removed] at kept
    cases kept
  · rw [result] at kept
    split at kept
    · cases kept
    · cases kept
      exact ⟨conditions, newEffects, converts, renamed, rfl⟩

/-- A removed operator has a precondition that is never reached, or no effect. -/
theorem Valid.translateOperator_none (valid : task.Valid) {op : SasOperator}
    (isOp : op ∈ task.operators) (removed : task.numbering.translateOperator op = .ok none) :
    (∃ fact ∈ op.getApplicabilityConditions, ¬ task.Reaches fact.var fact.val) ∨
      (∀ effect ∈ op.prePost, task.NeverChanges op effect) ∧ op.assignEffects = [] := by
  obtain ⟨_, unreached⟩ | ⟨conditions, newEffects, converts, renamed, result⟩ :=
    valid.translateOperator_cases isOp
  · exact .inl unreached
  · right
    rw [result] at removed
    split at removed
    · rename_i noEffect
      simp only [Bool.and_eq_true, List.isEmpty_iff] at noEffect
      refine ⟨fun effect isEffect => ?_, noEffect.2⟩
      obtain never | ⟨newEffect, isNew, _⟩ := renamed.target isEffect
      · exact never
      · rw [noEffect.1] at isNew
        cases isNew
    · cases removed

/-- Everything the simplified operator requires is among the converted conditions, and the other way
round. -/
theorem Valid.isApplicable_kept (valid : task.Valid) {op newOp : SasOperator}
    (isOp : op ∈ task.operators) (kept : task.numbering.translateOperator op = .ok (some newOp))
    {state newState : Preprocess.State} (corresponds : task.Corresponds state newState) :
    newOp.meaning.isApplicable newState = op.meaning.isApplicable state := by
  have validOp := valid.operators op isOp
  obtain ⟨conditions, newEffects, converts, renamed, rfl⟩ := valid.translateOperator_some isOp kept
  have isCondition := (valid.convertPairs_ok validOp.applicabilityFacts converts).2
  rw [isApplicable_eq_allHold op, ← valid.allHold_converted corresponds.values
    validOp.applicabilityFacts converts, Bool.eq_iff_iff, isApplicable_iff, Condition.allHold,
    List.all_eq_true]
  simp only [SasOperator.make, sortFacts, List.mem_mergeSort, SasPrePost.mem_canonical,
    List.mem_filter, List.all_eq_true, decide_eq_true_eq, and_imp]
  constructor
  · rintro ⟨prevail, pres⟩ condition member
    by_cases unwritten : ∀ effect ∈ newEffects, effect.var ≠ condition.var
    · exact prevail condition member unwritten
    · simp only [not_forall, not_not] at unwritten
      obtain ⟨newEffect, isNew, sameNew⟩ := unwritten
      obtain ⟨effect, isEffect, isRenamed⟩ := renamed.source isNew
      obtain ⟨fact, isFact, varies, rfl⟩ := (isCondition condition).mp member
      have isVar := (validOp.applicabilityFacts fact isFact).mem_domain.1
      have isEffectVar := (validOp.post effect isEffect).mem_domain.1
      have same : effect.var = fact.var := by
        rw [isRenamed.var] at sameNew
        exact (valid.newVar_inj isEffectVar isVar isRenamed.varies varies).mp sameNew
      -- the condition is the precondition of the effect
      obtain isPrevail | ⟨other, isOther, hasPre, rfl⟩ :=
        mem_getApplicabilityConditions.mp isFact
      · exact absurd same.symm (validOp.notPrevailed effect isEffect fact isPrevail)
      · have samePre := validOp.samePre effect isEffect other isOther same
        have newPre : newEffect.pre = task.newValue other.var other.pre := by
          rw [isRenamed.pre, samePre, if_neg hasPre, same]
        have holds := (pres newEffect isNew).resolve_left (by omega)
        rw [newPre, sameNew] at holds
        exact holds
  · intro hold
    refine ⟨fun condition member _ => hold condition member, fun newEffect isNew => ?_⟩
    obtain ⟨effect, isEffect, isRenamed⟩ := renamed.source isNew
    by_cases hasPre : effect.pre = -1
    · left
      rw [isRenamed.pre, if_pos hasPre]
    · right
      rw [isRenamed.pre, if_neg hasPre, isRenamed.var]
      exact hold _ ((isCondition _).mpr ⟨_, mem_getApplicabilityConditions.mpr
        (.inr ⟨effect, isEffect, hasPre, rfl⟩), isRenamed.varies, rfl⟩)

theorem applyOperator_values (op : SasOperator) (state : Preprocess.State) :
    (task.meaning.applyOperator op.meaning state).values =
      SasPrePost.applyAll state.values op.prePost state.values := by
  show (op.prePost.map SasPrePost.meaning).foldl (Preprocess.Task.applyPrePost state) state.values = _
  rw [List.foldl_map]
  rfl

/-- The numeric effects are those of the operator, in the same order. -/
theorem Simplified.applyOperator_numericValues (simple : Simplified task simplified)
    (valid : task.Valid) {op newOp : SasOperator} (sameEffects : newOp.assignEffects = op.assignEffects)
    (keep : task.NumericConditionsKeepNumbers op) {state newState : Preprocess.State}
    (corresponds : task.Corresponds state newState) :
    (simplified.meaning.applyOperator newOp.meaning newState).numericValues =
      (task.meaning.applyOperator op.meaning state).numericValues := by
  show (newOp.assignEffects.map SasAssignEffect.meaning).foldl
      (simplified.meaning.applyNumericEffect newState) newState.numericValues =
    (op.assignEffects.map SasAssignEffect.meaning).foldl
      (task.meaning.applyNumericEffect state) state.numericValues
  rw [sameEffects, corresponds.numericValues]
  have sameStep : ∀ effect ∈ op.assignEffects, ∀ numericValues,
      simplified.meaning.applyNumericEffect newState numericValues effect.meaning =
        task.meaning.applyNumericEffect state numericValues effect.meaning := by
    intro effect isEffect numericValues
    have sameFiring : Condition.allHold effect.meaning.effectConds newState.values =
        Condition.allHold effect.meaning.effectConds state.values :=
      valid.allHold_kept corresponds.values (keep effect isEffect)
    have sameTypes : simplified.meaning.numericType = task.meaning.numericType := by
      simp only [meaning, simple.numericTypes]
    unfold Preprocess.Task.applyNumericEffect
    rw [sameFiring, sameTypes, corresponds.numericValues]
  rw [List.foldl_map, List.foldl_map]
  exact List.foldl_ext _ _ _ fun numericValues effect isEffect => sameStep effect isEffect numericValues

theorem Simplified.successor (simple : Simplified task simplified) (valid : task.Valid)
    {op newOp : SasOperator} (isOp : op ∈ task.operators)
    (kept : task.numbering.translateOperator op = .ok (some newOp))
    (keep : task.NumericConditionsKeepNumbers op) {state newState : Preprocess.State}
    (corresponds : task.Corresponds state newState)
    (applicable : op.meaning.isApplicable state = true) :
    task.Corresponds (task.meaning.successor op.meaning state)
      (simplified.meaning.successor newOp.meaning newState) := by
  have validOp := valid.operators op isOp
  obtain ⟨conditions, newEffects, converts, renamed, rfl⟩ := valid.translateOperator_some isOp kept
  have sorted : op.prePost.Pairwise fun first second => first.groupKey ≤ second.groupKey :=
    validOp.canonical ▸ SasPrePost.canonical_sorted op.prePost
  rw [isApplicable_eq_allHold] at applicable
  refine simple.evaluateAxioms valid ⟨?_, ?_⟩
  · rw [applyOperator_values, applyOperator_values]
    have applied := RenamedAll.applyAll valid isOp (fun _ isEffect => isEffect) renamed
      corresponds.values applicable corresponds.values
    rwa [← SasPrePost.applyAll_canonical newState.values newState.values
      (renamed.sorted valid validOp (fun _ isEffect => isEffect) sorted)] at applied
  · exact simple.applyOperator_numericValues valid validOp.sorted keep corresponds

end SasTask

end CutPlan.Translate
