import CutPlan.Landmarks.FirstExploration

/-! # What the first exploration keeps

Between two pops the explored propositions have their final costs, everything that is labelled and not
explored waits in the queue, and the operators whose preconditions are all explored have been applied.
-/

namespace CutPlan.Landmarks

open CutPlan.Lib CutPlan.Lib.RuleGraph

namespace Exploration

variable {task : RelaxedTask} {env : Environment} {costs : task.Op → ℚ}

theorem queueWeight_nonneg (nonneg : ∀ index, 0 ≤ costs index) {index : task.Op}
    {effect : RelaxedProposition} {weight : ℚ} (weighs : queueWeight costs index effect = some weight) :
    0 ≤ weight := by
  cases effect with
  | condition id =>
    simp only [queueWeight] at weighs
    split at weighs
    · split at weighs
      · rename_i isLarge
        cases weighs
        exact mul_nonneg (task.options.precision_nonneg.trans isLarge) (nonneg index)
      · cases weighs
    · cases weighs
  | artificialPrecondition | artificialGoal | fact =>
    cases weighs
    exact nonneg index

/-- The rules that the exploration applies: an operator without preconditions is never triggered. -/
def queueGraph (costs : task.Op → ℚ) (nonneg : ∀ index, 0 ≤ costs index) :
    RuleGraph RelaxedProposition task.Op ℚ where
  source := fun prop => prop ∈ task.initialPropositions
  premises := fun index => (task.op index).preconditions
  weight := fun index prop =>
    if prop ∈ (task.op index).effects ∧ (task.op index).preconditions ≠ [] then
      queueWeight costs index prop
    else none
  weight_nonneg := by
    intro index prop value weighs
    split at weighs
    · exact queueWeight_nonneg nonneg weighs
    · cases weighs

abbrev entries (state : Exploration task env) : Multiset (ℚ × RelaxedProposition) :=
  env.queue.entries state.priorityQueue

/-! ## Enqueuing -/

section Enqueue

variable {state : Exploration task env}

theorem enqueueIfNecessary_cases (state : Exploration task env) (prop : RelaxedProposition) (cost : ℚ) :
    (Within state.hMaxCost prop cost ∧ state.enqueueIfNecessary prop cost = state) ∨
      ((∀ old, state.hMaxCost prop = some old → cost < old) ∧
        state.enqueueIfNecessary prop cost =
          { state with
            hMaxCost := Function.update state.hMaxCost prop (some cost)
            priorityQueue := env.queue.push cost prop state.priorityQueue }) := by
  unfold enqueueIfNecessary
  cases labelled : state.hMaxCost prop with
  | none => exact .inr ⟨by simp, by simp⟩
  | some old =>
    have isOld : state.costOf prop = old := by simp [costOf, labelled]
    by_cases smaller : cost < old
    · exact .inr ⟨by simpa using smaller, by simp [isOld, smaller]⟩
    · exact .inl ⟨⟨old, labelled, not_lt.mp smaller⟩, by simp [isOld, smaller]⟩

theorem within_enqueueIfNecessary (prop : RelaxedProposition) (cost : ℚ) :
    Within (state.enqueueIfNecessary prop cost).hMaxCost prop cost := by
  cases enqueueIfNecessary_cases state prop cost with
  | inl kept => rw [kept.2]; exact kept.1
  | inr lowered => rw [lowered.2]; exact ⟨cost, Function.update_self _ _ _, le_refl cost⟩

/-- Labels only get cheaper. -/
theorem enqueueIfNecessary_within {other : RelaxedProposition} {bound : ℚ}
    (within : Within state.hMaxCost other bound) (prop : RelaxedProposition) (cost : ℚ) :
    Within (state.enqueueIfNecessary prop cost).hMaxCost other bound := by
  cases enqueueIfNecessary_cases state prop cost with
  | inl kept => rw [kept.2]; exact within
  | inr lowered =>
    obtain ⟨old, labelled, le⟩ := within
    rw [lowered.2]
    by_cases own : other = prop
    · subst own
      exact ⟨cost, Function.update_self _ _ _, (lowered.1 old labelled).le.trans le⟩
    · exact ⟨old, by rw [← labelled]; exact Function.update_of_ne own _ _, le⟩

theorem hMaxCost_enqueueIfNecessary_of_within {prop other : RelaxedProposition} {cost : ℚ}
    (cheap : Within state.hMaxCost other cost) :
    (state.enqueueIfNecessary prop cost).hMaxCost other = state.hMaxCost other := by
  cases enqueueIfNecessary_cases state prop cost with
  | inl kept => rw [kept.2]
  | inr lowered =>
    rw [lowered.2]
    refine Function.update_of_ne ?_ _ _
    rintro rfl
    obtain ⟨old, labelled, le⟩ := cheap
    exact absurd (lowered.1 old labelled) (not_lt.mpr le)

/-- Labels and queue agree: entries are no cheaper than the labels, and each label is an entry or its
proposition has been settled. -/
structure Queued (settled : RelaxedProposition → Prop) (state : Exploration task env) : Prop where
  valid : ∀ entry ∈ state.entries, Within state.hMaxCost entry.2 entry.1
  pending : ∀ prop cost, state.hMaxCost prop = some cost → ¬ settled prop →
    (cost, prop) ∈ state.entries

theorem Queued.enqueueIfNecessary {settled : RelaxedProposition → Prop}
    (queued : Queued settled state) (prop : RelaxedProposition) (cost : ℚ) :
    Queued settled (state.enqueueIfNecessary prop cost) := by
  cases enqueueIfNecessary_cases state prop cost with
  | inl kept => rw [kept.2]; exact queued
  | inr lowered =>
    have grown : (state.enqueueIfNecessary prop cost).entries = (cost, prop) ::ₘ state.entries := by
      rw [lowered.2]
      exact env.queue.entries_push _ _ _
    constructor
    · intro entry member
      rw [grown, Multiset.mem_cons] at member
      cases member with
      | inl isNew => rw [isNew]; exact within_enqueueIfNecessary prop cost
      | inr isOld => exact enqueueIfNecessary_within (queued.valid entry isOld) prop cost
    · intro other otherCost labelled unsettled
      rw [grown, Multiset.mem_cons]
      rw [lowered.2] at labelled
      by_cases own : other = prop
      · subst own
        simp only [Function.update_self, Option.some.injEq] at labelled
        exact .inl (by rw [labelled])
      · simp only [Function.update_of_ne own] at labelled
        exact .inr (queued.pending other otherCost labelled unsettled)

/-- A label is waiting at most once in the queue, and not at all if its proposition is settled. -/
def Once (settled : RelaxedProposition → Bool) (state : Exploration task env) : Prop :=
  ∀ prop cost, state.hMaxCost prop = some cost →
    state.entries.count (cost, prop) ≤ if settled prop then 0 else 1

theorem Once.enqueueIfNecessary {settled : RelaxedProposition → Bool} (once : Once settled state)
    (valid : ∀ entry ∈ state.entries, Within state.hMaxCost entry.2 entry.1)
    {prop : RelaxedProposition} {cost : ℚ}
    (cheap : settled prop = true → Within state.hMaxCost prop cost) :
    Once settled (state.enqueueIfNecessary prop cost) := by
  cases enqueueIfNecessary_cases state prop cost with
  | inl kept => rw [kept.2]; exact once
  | inr lowered =>
    intro other otherCost labelled
    have grown : (state.enqueueIfNecessary prop cost).entries = (cost, prop) ::ₘ state.entries := by
      rw [lowered.2]
      exact env.queue.entries_push _ _ _
    rw [lowered.2] at labelled
    rw [grown]
    by_cases own : other = prop
    · subst own
      simp only [Function.update_self, Option.some.injEq] at labelled
      subst labelled
      -- an old entry at this cost would mean that the label has not been lowered
      have notWithin : ¬ Within state.hMaxCost other cost := by
        rintro ⟨old, isOld, le⟩
        exact absurd (lowered.1 old isOld) (not_lt.mpr le)
      have absent : (cost, other) ∉ state.entries := fun member => notWithin (valid _ member)
      have unsettled : settled other = false := by
        cases isSettled : settled other with
        | false => rfl
        | true => exact absurd (cheap isSettled) notWithin
      rw [Multiset.count_cons_self, Multiset.count_eq_zero.mpr absent, unsettled]
      simp
    · simp only [Function.update_of_ne own] at labelled
      rw [Multiset.count_cons_of_ne (by simp [own])]
      exact once other otherCost labelled

theorem entries_enqueueIfNecessary {entry : ℚ × RelaxedProposition} {prop : RelaxedProposition}
    {cost : ℚ} (member : entry ∈ (state.enqueueIfNecessary prop cost).entries) :
    entry = (cost, prop) ∨ entry ∈ state.entries := by
  cases enqueueIfNecessary_cases state prop cost with
  | inl kept => rw [kept.2] at member; exact .inr member
  | inr lowered =>
    rw [lowered.2] at member
    exact Multiset.mem_cons.mp (env.queue.entries_push _ _ _ ▸ member)

theorem enqueueIfNecessary_sound {nonneg : ∀ index, 0 ≤ costs index}
    (sound : (queueGraph costs nonneg).Sound state.hMaxCost) {prop : RelaxedProposition} {cost : ℚ}
    (derives : (queueGraph costs nonneg).Derives prop cost) :
    (queueGraph costs nonneg).Sound (state.enqueueIfNecessary prop cost).hMaxCost := by
  cases enqueueIfNecessary_cases state prop cost with
  | inl kept => rw [kept.2]; exact sound
  | inr lowered =>
    intro other otherCost labelled
    rw [lowered.2] at labelled
    by_cases own : other = prop
    · subst own
      simp only [Function.update_self, Option.some.injEq] at labelled
      exact labelled ▸ derives
    · simp only [Function.update_of_ne own] at labelled
      exact sound other otherCost labelled

end Enqueue

/-! ## The invariant -/

/-- The operator carries the costs of its preconditions to its effects. -/
def Applied (costs : task.Op → ℚ) (state : Exploration task env) (index : task.Op) : Prop :=
  ∀ effect ∈ (task.op index).effects, ∀ weight, queueWeight costs index effect = some weight →
    ∀ bound, (∀ premise ∈ (task.op index).preconditions, Within state.hMaxCost premise bound) →
      Within state.hMaxCost effect (bound + weight)

/-- The supporter is a precondition of the operator, and a dearest one unless it is drawn; one that is
free is not drawn, if another precondition is not. -/
def Supported (state : Exploration task env) (index : task.Op) : Prop :=
  ∃ supporter ∈ (task.op index).preconditions, state.hMaxSupporter index = some supporter ∧
    state.hMaxCost supporter = some (state.hMaxSupporterCost index) ∧
    ((task.options.useRandomPcf = true → state.hMaxSupporterCost index ≤ 0) →
      ∀ premise ∈ (task.op index).preconditions,
        Within state.hMaxCost premise (state.hMaxSupporterCost index))

/-- The invariant while the operators in the list still have to be told of the last pop, which had the
key.  The roots have been enqueued, and operators that are exempt are being applied. -/
structure Exploring (costs : task.Op → ℚ) (nonneg : ∀ index, 0 ≤ costs index)
    (roots : List RelaxedProposition) (key : ℚ) (todo : List task.Op) (exempt : task.Op → Prop) (state : Exploration task env) : Prop where
  sound : (queueGraph costs nonneg).Sound state.hMaxCost
  sources : ∀ prop ∈ roots, Within state.hMaxCost prop 0
  queued : Queued (fun prop => state.explored prop = true) state
  once : Once state.explored state
  key_le : ∀ entry ∈ state.entries, key ≤ entry.1
  settled : ∀ prop, state.explored prop = true → Within state.hMaxCost prop key
  unsatisfied : ∀ index, state.unsatisfiedPreconditions index =
    ((task.op index).preconditions.countP fun prop => !state.explored prop) + todo.count index
  applied : ∀ index, ¬ exempt index → (task.op index).preconditions ≠ [] →
    state.unsatisfiedPreconditions index = 0 → Applied costs state index
  supported : ∀ index, ¬ exempt index → (task.op index).preconditions ≠ [] →
    state.unsatisfiedPreconditions index = 0 → Supported state index
  supporting : ∀ index supporter, ¬ exempt index → state.hMaxSupporter index = some supporter →
    supporter ∈ (task.op index).preconditions ∧ state.unsatisfiedPreconditions index = 0

namespace Exploring

variable {nonneg : ∀ index, 0 ≤ costs index} {roots : List RelaxedProposition} {key : ℚ} {todo : List task.Op}
  {exempt : task.Op → Prop} {state : Exploration task env}

theorem explored_of_satisfied (exploring : Exploring costs nonneg roots key todo exempt state)
    {index : task.Op} (satisfied : state.unsatisfiedPreconditions index = 0)
    {premise : RelaxedProposition} (member : premise ∈ (task.op index).preconditions) :
    state.explored premise = true := by
  have count := exploring.unsatisfied index
  have none : ((task.op index).preconditions.countP fun prop => !state.explored prop) = 0 := by omega
  simpa using List.countP_eq_zero.mp none premise member

/-- Enqueuing at no less than the key leaves the explored propositions alone. -/
theorem enqueueIfNecessary (exploring : Exploring costs nonneg roots key todo exempt state)
    {prop : RelaxedProposition} {cost : ℚ} (derives : (queueGraph costs nonneg).Derives prop cost)
    (large : key ≤ cost) :
    Exploring costs nonneg roots key todo exempt (state.enqueueIfNecessary prop cost) := by
  have same : SameOperators state (state.enqueueIfNecessary prop cost) :=
    enqueueIfNecessary_sameOperators prop cost
  have exploredKept : ∀ other, state.explored other = true →
      (state.enqueueIfNecessary prop cost).hMaxCost other = state.hMaxCost other := fun other isExplored =>
    hMaxCost_enqueueIfNecessary_of_within ((exploring.settled other isExplored).mono large)
  have premisesKept : ∀ index, state.unsatisfiedPreconditions index = 0 →
      ∀ premise ∈ (task.op index).preconditions,
        (state.enqueueIfNecessary prop cost).hMaxCost premise = state.hMaxCost premise :=
    fun index satisfied premise member =>
      exploredKept premise (exploring.explored_of_satisfied satisfied member)
  constructor
  · exact enqueueIfNecessary_sound exploring.sound derives
  · exact fun source member => enqueueIfNecessary_within (exploring.sources source member) prop cost
  · rw [same.explored]
    exact exploring.queued.enqueueIfNecessary prop cost
  · rw [same.explored]
    exact exploring.once.enqueueIfNecessary exploring.queued.valid fun isExplored =>
      (exploring.settled prop isExplored).mono large
  · intro entry member
    cases entries_enqueueIfNecessary member with
    | inl isNew => rw [isNew]; exact large
    | inr isOld => exact exploring.key_le entry isOld
  · rw [same.explored]
    exact fun other isExplored =>
      enqueueIfNecessary_within (exploring.settled other isExplored) prop cost
  · rw [same.explored, same.unsatisfied]
    exact exploring.unsatisfied
  · rw [same.unsatisfied]
    intro index notExempt nonempty satisfied effect effectMember weight weighs bound premises
    refine enqueueIfNecessary_within (exploring.applied index notExempt nonempty satisfied effect
      effectMember weight weighs bound fun premise member => ?_) prop cost
    have within := premises premise member
    unfold Within at within ⊢
    rwa [premisesKept index satisfied premise member] at within
  · rw [same.unsatisfied]
    intro index notExempt nonempty satisfied
    obtain ⟨supporter, member, isSupporter, labelled, dearest⟩ :=
      exploring.supported index notExempt nonempty satisfied
    rw [Supported, same.supporter, same.supporterCost]
    refine ⟨supporter, member, isSupporter, ?_, fun drawnFree premise isPremise => ?_⟩
    · rw [premisesKept index satisfied supporter member]
      exact labelled
    · exact enqueueIfNecessary_within (dearest drawnFree premise isPremise) prop cost
  · rw [same.supporter, same.unsatisfied]
    exact exploring.supporting

/-- What enqueuing effects from an explored precondition keeps and does. -/
structure Pushes (costs : task.Op → ℚ) (nonneg : ∀ index, 0 ≤ costs index)
    (roots : List RelaxedProposition) (key : ℚ) (todo : List task.Op) (exempt : task.Op → Prop)
    (index : task.Op) (effects : List RelaxedProposition) (state after : Exploration task env) :
    Prop where
  exploring : Exploring costs nonneg roots key todo exempt after
  explored : ∀ prop, state.explored prop = true → after.hMaxCost prop = state.hMaxCost prop
  cheaper : ∀ prop bound, Within state.hMaxCost prop bound → Within after.hMaxCost prop bound
  effects : ∀ effect ∈ effects, ∀ weight, queueWeight costs index effect = some weight →
    Within after.hMaxCost effect (key + weight)

/-- One effect: either no edge leads there, or the cost of the last precondition is carried to it. -/
theorem updateQueue (exploring : Exploring costs nonneg roots key todo exempt state) {index : task.Op}
    {prop effect : RelaxedProposition} (labelled : state.hMaxCost prop = some key)
    (member : prop ∈ (task.op index).preconditions)
    (satisfied : state.unsatisfiedPreconditions index = 0)
    (isEffect : effect ∈ (task.op index).effects) :
    Pushes costs nonneg roots key todo exempt index [effect] state
      (state.updateQueue costs prop effect index) := by
  have isKey : state.costOf prop = key := by simp [costOf, labelled]
  rw [updateQueue_eq]
  cases weighs : queueWeight costs index effect with
  | none => exact ⟨exploring, fun _ _ => rfl, fun _ _ => id, by simp [weighs]⟩
  | some weight =>
    have large : key ≤ key + weight := le_add_of_nonneg_right (queueWeight_nonneg nonneg weighs)
    have keyNonneg : 0 ≤ key := (exploring.sound prop key labelled).nonneg
    have derives : (queueGraph costs nonneg).Derives effect (key + weight) := by
      have edge : (queueGraph costs nonneg).weight index effect = some weight := by
        simp only [queueGraph]
        rw [if_pos ⟨isEffect, List.ne_nil_of_mem member⟩]
        exact weighs
      refine .rule (fun premise => state.costOf premise) edge keyNonneg ?_ ?_
      all_goals
        intro premise isPremise
        obtain ⟨cost, isCost, le⟩ := exploring.settled premise
          (exploring.explored_of_satisfied satisfied isPremise)
        simp only [costOf, isCost, Option.getD_some]
      · exact exploring.sound premise cost isCost
      · exact le
    rw [Option.elim_some, isKey]
    refine ⟨exploring.enqueueIfNecessary derives large, fun other isExplored => ?_, ?_, ?_⟩
    · exact hMaxCost_enqueueIfNecessary_of_within ((exploring.settled other isExplored).mono large)
    · exact fun other bound within => enqueueIfNecessary_within within effect _
    · intro other isOther otherWeight isWeight
      rw [List.mem_singleton.mp isOther] at isWeight ⊢
      rw [weighs] at isWeight
      cases isWeight
      exact within_enqueueIfNecessary effect _

/-- Applying an operator whose preconditions are explored labels its effects. -/
theorem updateEffects (exploring : Exploring costs nonneg roots key todo exempt state) {index : task.Op}
    {prop : RelaxedProposition} (labelled : state.hMaxCost prop = some key)
    (isExplored : state.explored prop = true) (member : prop ∈ (task.op index).preconditions)
    (satisfied : state.unsatisfiedPreconditions index = 0) :
    Pushes costs nonneg roots key todo exempt index (task.op index).effects state
      (state.updateEffects costs prop index) := by
  have folded : ∀ effects : List RelaxedProposition, effects ⊆ (task.op index).effects →
      ∀ state : Exploration task env, Exploring costs nonneg roots key todo exempt state →
        state.hMaxCost prop = some key → state.explored prop = true →
        state.unsatisfiedPreconditions index = 0 →
        Pushes costs nonneg roots key todo exempt index effects state
          (effects.foldl (fun state effect => state.updateQueue costs prop effect index) state) := by
    intro effects
    induction effects with
    | nil => exact fun _ state exploring _ _ _ => ⟨exploring, fun _ _ => rfl, fun _ _ => id, by simp⟩
    | cons effect effects inductionHypothesis =>
      intro subset state exploring labelled isExplored satisfied
      have same : SameOperators state (state.updateQueue costs prop effect index) :=
        updateQueue_sameOperators prop effect index
      have first := exploring.updateQueue labelled member satisfied (subset List.mem_cons_self)
      have rest := inductionHypothesis (fun other isOther => subset (List.mem_cons_of_mem _ isOther)) _
        first.exploring ((first.explored prop isExplored).trans labelled)
        (by rw [same.explored]; exact isExplored) (by rw [same.unsatisfied]; exact satisfied)
      constructor
      · exact rest.exploring
      · intro other otherExplored
        exact (rest.explored other (by rw [same.explored]; exact otherExplored)).trans
          (first.explored other otherExplored)
      · exact fun other bound within => rest.cheaper other bound (first.cheaper other bound within)
      · rw [List.forall_mem_cons]
        refine ⟨fun weight weighs => ?_, rest.effects⟩
        exact rest.cheaper _ _ (first.effects effect List.mem_cons_self weight weighs)
  exact folded _ (fun _ => id) state exploring labelled isExplored satisfied

end Exploring

/-! ## Supporters -/

section Supporters

variable {state : Exploration task env} {index : task.Op}

theorem supporterPool_subset : state.supporterPool index ⊆ (task.op index).preconditions := by
  unfold supporterPool
  simp only
  split
  · exact List.Subset.refl _
  · exact List.filter_subset' _

theorem supporterPool_ne_nil (nonempty : (task.op index).preconditions ≠ []) :
    state.supporterPool index ≠ [] := by
  unfold supporterPool
  simp only
  split
  · exact nonempty
  · rename_i somePositive
    simpa using somePositive

/-- A precondition that is free is in the pool only if all are. -/
theorem free_of_mem_supporterPool {supporter : RelaxedProposition}
    (member : supporter ∈ state.supporterPool index) (free : state.costOf supporter ≤ 0) :
    ∀ premise ∈ (task.op index).preconditions, state.costOf premise ≤ 0 := by
  unfold supporterPool at member
  simp only at member
  split at member
  · rename_i nonePositive
    simpa using nonePositive
  · have positive := (List.mem_filter.mp member).2
    simp only [decide_eq_true_eq] at positive
    exact absurd positive (not_lt.mpr free)

/-- A drawn supporter is a precondition, and none is free unless all are. -/
theorem selectRandomSupporter_spec (state : Exploration task env)
    (nonempty : (task.op index).preconditions ≠ []) :
    ∃ supporter ∈ (task.op index).preconditions,
      (state.costOf supporter ≤ 0 →
        ∀ premise ∈ (task.op index).preconditions, state.costOf premise ≤ 0) ∧
      (state.selectRandomSupporter index).hMaxSupporter =
          Function.update state.hMaxSupporter index (some supporter) ∧
        (state.selectRandomSupporter index).hMaxSupporterCost =
          Function.update state.hMaxSupporterCost index (state.costOf supporter) := by
  have positive : 0 < (state.supporterPool index).length :=
    List.length_pos_of_ne_nil (supporterPool_ne_nil nonempty)
  have drawn := env.rng_lt state.draws _ positive
  refine ⟨(state.supporterPool index)[env.rng state.draws _], ?_, ?_, ?_, ?_⟩
  · exact supporterPool_subset (List.getElem_mem drawn)
  · exact free_of_mem_supporterPool (List.getElem_mem drawn)
  · simp [selectRandomSupporter, List.getElem?_eq_getElem drawn]
  · simp [selectRandomSupporter, List.getElem?_eq_getElem drawn]

/-- Setting a supporter changes the supporter of this operator only. -/
theorem setSupporter_spec (state : Exploration task env) {prop : RelaxedProposition}
    (member : prop ∈ (task.op index).preconditions) :
    ∃ supporter ∈ (task.op index).preconditions,
      (task.options.useRandomPcf = false → supporter = prop) ∧
      (task.options.useRandomPcf = true → state.costOf supporter ≤ 0 →
        ∀ premise ∈ (task.op index).preconditions, state.costOf premise ≤ 0) ∧
      (state.setSupporter prop index).hMaxSupporter =
          Function.update state.hMaxSupporter index (some supporter) ∧
        (state.setSupporter prop index).hMaxSupporterCost =
          Function.update state.hMaxSupporterCost index (state.costOf supporter) := by
  unfold setSupporter
  cases random : task.options.useRandomPcf with
  | false => exact ⟨prop, member, fun _ => rfl, by simp, rfl, rfl⟩
  | true =>
    obtain ⟨supporter, isPremise, allFree, sameSupporter, sameCost⟩ :=
      selectRandomSupporter_spec state (List.ne_nil_of_mem member)
    exact ⟨supporter, isPremise, by simp, fun _ => allFree, sameSupporter, sameCost⟩

theorem setSupporter_hMaxCost (prop : RelaxedProposition) :
    (state.setSupporter prop index).hMaxCost = state.hMaxCost := by
  unfold setSupporter
  split <;> rfl

theorem setSupporter_explored (prop : RelaxedProposition) :
    (state.setSupporter prop index).explored = state.explored := by
  unfold setSupporter
  split <;> rfl

end Supporters

namespace Exploring

variable {nonneg : ∀ index, 0 ≤ costs index} {roots : List RelaxedProposition} {key : ℚ} {todo : List task.Op}
  {state : Exploration task env}

/-- One operator is told of the last pop. -/
theorem satisfyPrecondition {prop : RelaxedProposition} {index : task.Op}
    (exploring : Exploring costs nonneg roots key (index :: todo) (fun _ => False) state)
    (labelled : state.hMaxCost prop = some key) (isExplored : state.explored prop = true)
    (member : prop ∈ (task.op index).preconditions) :
    Exploring costs nonneg roots key todo (fun _ => False) (state.satisfyPrecondition costs prop index) ∧
      (state.satisfyPrecondition costs prop index).hMaxCost prop = some key ∧
      (state.satisfyPrecondition costs prop index).explored prop = true := by
  have count := exploring.unsatisfied index
  rw [List.count_cons_self] at count
  -- the state after the decrement, with the operator itself exempt
  have decremented : Exploring costs nonneg roots key todo (fun other => other = index)
      (state.decrementUnsatisfied index) := by
    refine ⟨exploring.sound, exploring.sources, ⟨exploring.queued.valid, exploring.queued.pending⟩,
      exploring.once, exploring.key_le, exploring.settled, ?_, ?_, ?_, ?_⟩
    · intro other
      rw [unsatisfied_decrementUnsatisfied]
      by_cases own : other = index
      · subst own
        rw [if_pos rfl, count]
        push_cast
        exact add_sub_assoc _ _ _ |>.trans (by simp [decrementUnsatisfied])
      · have otherCount := exploring.unsatisfied other
        rw [List.count_cons_of_ne (Ne.symm own)] at otherCount
        rw [if_neg own]
        exact otherCount
    · intro other notExempt nonempty satisfied
      rw [unsatisfied_decrementUnsatisfied, if_neg notExempt] at satisfied
      exact exploring.applied other id nonempty satisfied
    · intro other notExempt nonempty satisfied
      rw [unsatisfied_decrementUnsatisfied, if_neg notExempt] at satisfied
      exact exploring.supported other id nonempty satisfied
    · intro other supporter notExempt supports
      rw [unsatisfied_decrementUnsatisfied, if_neg notExempt]
      exact exploring.supporting other supporter id supports
  have unsupported : state.hMaxSupporter index = none := by
    cases supports : state.hMaxSupporter index with
    | none => rfl
    | some supporter =>
      have satisfied := (exploring.supporting index supporter id supports).2
      omega
  have known : (state.decrementUnsatisfied index).hMaxCost prop = some key ∧
      (state.decrementUnsatisfied index).explored prop = true ∧
      (state.decrementUnsatisfied index).hMaxSupporter index = none :=
    ⟨labelled, isExplored, unsupported⟩
  unfold Exploration.satisfyPrecondition
  simp only
  generalize state.decrementUnsatisfied index = state at decremented known
  obtain ⟨decrementLabelled, decrementExplored, decrementUnsupported⟩ := known
  by_cases satisfied : state.unsatisfiedPreconditions index = 0
  · rw [if_pos satisfied]
    obtain ⟨supporter, isPremise, isProp, allFree, sameSupporter, sameCost⟩ :=
      setSupporter_spec state member
    -- setting the supporter keeps what is said of the other operators
    have supportedState : Exploring costs nonneg roots key todo (fun other => other = index)
        (state.setSupporter prop index) := by
      constructor
      · rw [setSupporter_hMaxCost]; exact decremented.sound
      · rw [setSupporter_hMaxCost]; exact decremented.sources
      · refine ⟨?_, ?_⟩
        · rw [setSupporter_hMaxCost]
          unfold entries
          rw [setSupporter_priorityQueue]
          exact decremented.queued.valid
        · rw [setSupporter_hMaxCost, setSupporter_explored]
          unfold entries
          rw [setSupporter_priorityQueue]
          exact decremented.queued.pending
      · unfold Once entries
        rw [setSupporter_hMaxCost, setSupporter_priorityQueue, setSupporter_explored]
        exact decremented.once
      · unfold entries
        rw [setSupporter_priorityQueue]
        exact decremented.key_le
      · rw [setSupporter_hMaxCost, setSupporter_explored]; exact decremented.settled
      · rw [setSupporter_unsatisfied, setSupporter_explored]; exact decremented.unsatisfied
      · unfold Applied
        rw [setSupporter_hMaxCost, setSupporter_unsatisfied]
        exact decremented.applied
      · unfold Supported
        rw [setSupporter_hMaxCost, setSupporter_unsatisfied, sameSupporter, sameCost]
        intro other notExempt nonempty otherSatisfied
        rw [Function.update_of_ne notExempt, Function.update_of_ne notExempt]
        exact decremented.supported other notExempt nonempty otherSatisfied
      · rw [setSupporter_unsatisfied, sameSupporter]
        intro other otherSupporter notExempt supports
        rw [Function.update_of_ne notExempt] at supports
        exact decremented.supporting other otherSupporter notExempt supports
    have pushes := supportedState.updateEffects
      (by rw [setSupporter_hMaxCost]; exact decrementLabelled)
      (by rw [setSupporter_explored]; exact decrementExplored) member
      (by rw [setSupporter_unsatisfied]; exact satisfied)
    have after := pushes.exploring
    have same : SameOperators (state.setSupporter prop index)
        ((state.setSupporter prop index).updateEffects costs prop index) :=
      updateEffects_sameOperators prop index
    -- the preconditions are explored, and enqueuing the effects leaves their costs alone
    have kept : ∀ premise ∈ (task.op index).preconditions, ∃ cost,
        ((state.setSupporter prop index).updateEffects costs prop index).hMaxCost premise =
          some cost ∧ state.costOf premise = cost ∧ 0 ≤ cost ∧ cost ≤ key := by
      intro premise isPremise
      have premiseExplored := supportedState.explored_of_satisfied
        (by rw [setSupporter_unsatisfied]; exact satisfied) isPremise
      have unchanged := pushes.explored premise premiseExplored
      obtain ⟨cost, isCost, le⟩ := supportedState.settled premise premiseExplored
      refine ⟨cost, unchanged.trans isCost, ?_, (supportedState.sound premise cost isCost).nonneg, le⟩
      rw [setSupporter_hMaxCost] at isCost
      simp [costOf, isCost]
    have afterLabelled : ((state.setSupporter prop index).updateEffects costs prop index).hMaxCost
        prop = some key := by
      obtain ⟨cost, isCost, stateCost, -⟩ := kept prop member
      rw [isCost, ← stateCost]
      simp [costOf, decrementLabelled]
    refine ⟨⟨after.sound, after.sources, after.queued, after.once, after.key_le, after.settled,
      after.unsatisfied, ?_, ?_, ?_⟩, afterLabelled, ?_⟩
    · intro other _ nonempty otherSatisfied
      by_cases own : other = index
      · subst own
        intro effect effectMember weight weighs bound premises
        obtain ⟨cost, isCost, le⟩ := premises prop member
        have isKey : cost = key := by simpa [afterLabelled] using isCost.symm
        exact (pushes.effects effect effectMember weight weighs).mono (by linarith)
      · exact after.applied other own nonempty otherSatisfied
    · intro other _ nonempty otherSatisfied
      by_cases own : other = index
      · subst own
        obtain ⟨cost, isCost, stateCost, costNonneg, -⟩ := kept supporter isPremise
        rw [Supported, same.supporter, same.supporterCost, sameSupporter, sameCost,
          Function.update_self, Function.update_self, stateCost]
        refine ⟨supporter, isPremise, rfl, isCost, fun drawnFree premise premiseMember => ?_⟩
        obtain ⟨premiseCost, isPremiseCost, statePremiseCost, -, le⟩ := kept premise premiseMember
        refine ⟨premiseCost, isPremiseCost, ?_⟩
        cases random : task.options.useRandomPcf with
        | false =>
          have isKey : state.costOf prop = key := by simp [costOf, decrementLabelled]
          rw [isProp random, isKey] at stateCost
          exact le.trans_eq stateCost
        | true =>
          have free := allFree random (stateCost ▸ drawnFree random) premise premiseMember
          rw [statePremiseCost] at free
          exact free.trans costNonneg
      · exact after.supported other own nonempty otherSatisfied
    · rw [same.supporter, same.unsatisfied]
      intro other otherSupporter _ supports
      by_cases own : other = index
      · subst own
        rw [sameSupporter, Function.update_self] at supports
        cases supports
        exact ⟨isPremise, by rw [setSupporter_unsatisfied]; exact satisfied⟩
      · rw [← same.unsatisfied]
        exact after.supporting other otherSupporter own (by rw [same.supporter]; exact supports)
    · rw [same.explored, setSupporter_explored]
      exact decrementExplored
  · rw [if_neg satisfied]
    refine ⟨⟨decremented.sound, decremented.sources, decremented.queued, decremented.once,
      decremented.key_le, decremented.settled, decremented.unsatisfied, ?_, ?_, ?_⟩,
      decrementLabelled, decrementExplored⟩
    · intro other _ nonempty otherSatisfied
      by_cases own : other = index
      · subst own
        exact absurd otherSatisfied satisfied
      · exact decremented.applied other own nonempty otherSatisfied
    · intro other _ nonempty otherSatisfied
      by_cases own : other = index
      · subst own
        exact absurd otherSatisfied satisfied
      · exact decremented.supported other own nonempty otherSatisfied
    · intro other supporter _ supports
      by_cases own : other = index
      · subst own
        rw [decrementUnsupported] at supports
        cases supports
      · exact decremented.supporting other supporter own supports

theorem satisfyPreconditions {prop : RelaxedProposition} {indices : List task.Op}
    (exploring : Exploring costs nonneg roots key indices (fun _ => False) state)
    (labelled : state.hMaxCost prop = some key) (isExplored : state.explored prop = true)
    (members : ∀ index ∈ indices, prop ∈ (task.op index).preconditions) :
    Exploring costs nonneg roots key [] (fun _ => False)
      (indices.foldl (Exploration.satisfyPrecondition costs prop) state) := by
  induction indices generalizing state with
  | nil => exact exploring
  | cons index indices inductionHypothesis =>
    rw [List.forall_mem_cons] at members
    obtain ⟨after, afterLabelled, afterExplored⟩ :=
      exploring.satisfyPrecondition labelled isExplored members.1
    exact inductionHypothesis after afterLabelled afterExplored members.2

/-- One pop: a stale entry is dropped, any other one makes its proposition explored. -/
theorem processEntry (exploring : Exploring costs nonneg roots key [] (fun _ => False) state)
    {entry : ℚ × RelaxedProposition} {rest : env.queue.Heap}
    (popped : env.queue.pop state.priorityQueue = some (entry, rest)) :
    Exploring costs nonneg roots entry.1 [] (fun _ => False)
      ({ state with priorityQueue := rest }.processEntry costs entry) := by
  have split : state.entries = entry ::ₘ env.queue.entries rest :=
    env.queue.entries_of_pop_some _ _ _ popped
  have least : ∀ other ∈ env.queue.entries rest, entry.1 ≤ other.1 :=
    env.queue.le_of_pop_some _ _ _ popped
  have larger : key ≤ entry.1 :=
    exploring.key_le entry (by rw [split]; exact Multiset.mem_cons_self _ _)
  have restValid : ∀ other ∈ env.queue.entries rest, Within state.hMaxCost other.2 other.1 :=
    fun other member => exploring.queued.valid other (by rw [split]; exact Multiset.mem_cons_of_mem member)
  have restCount (cost : ℚ) (prop : RelaxedProposition) :
      (env.queue.entries rest).count (cost, prop) ≤ state.entries.count (cost, prop) := by
    rw [split]
    exact Multiset.count_le_count_cons _ _ _
  obtain ⟨cost, labelled, le⟩ := exploring.queued.valid entry (by rw [split]; exact Multiset.mem_cons_self _ _)
  have isCost : state.costOf entry.2 = cost := by simp [costOf, labelled]
  unfold Exploration.processEntry
  by_cases stale : cost < entry.1
  · rw [if_pos (by unfold costOf at isCost ⊢; simp only; rw [isCost]; exact stale)]
    refine ⟨exploring.sound, exploring.sources, ⟨restValid, ?_⟩, ?_, least, ?_, exploring.unsatisfied,
      exploring.applied, exploring.supported, exploring.supporting⟩
    · intro prop propCost isLabel unsettled
      have pending := exploring.queued.pending prop propCost isLabel unsettled
      rw [split, Multiset.mem_cons] at pending
      refine pending.resolve_left fun isEntry => ?_
      -- the entry that has been popped is no label
      rw [← isEntry] at labelled stale
      have same : cost = propCost := by simpa [labelled] using isLabel
      exact absurd stale (by simp [same])
    · exact fun prop propCost isLabel => (restCount propCost prop).trans (exploring.once prop propCost isLabel)
    · exact fun prop isExplored => (exploring.settled prop isExplored).mono larger
  · have isKey : cost = entry.1 := le_antisymm le (not_lt.mp stale)
    subst isKey
    rw [if_neg (by unfold costOf at isCost ⊢; simp only; rw [isCost]; exact stale)]
    have first : 1 ≤ state.entries.count entry := by
      rw [split, Multiset.count_cons_self]
      exact Nat.le_add_left _ _
    have unexplored : state.explored entry.2 = false := by
      cases isExplored : state.explored entry.2 with
      | false => rfl
      | true =>
        have none := exploring.once entry.2 entry.1 labelled
        rw [isExplored, if_pos rfl, Prod.mk.eta] at none
        omega
    have gone : (env.queue.entries rest).count entry = 0 := by
      have once := exploring.once entry.2 entry.1 labelled
      rw [unexplored, split] at once
      simp only [Prod.mk.eta, Multiset.count_cons_self, Bool.false_eq_true, if_false] at once
      omega
    have exploredCases (prop : RelaxedProposition) :
        Function.update state.explored entry.2 true prop = true ↔
          prop = entry.2 ∨ state.explored prop = true := by
      by_cases own : prop = entry.2
      · simp [own]
      · simp [own]
    have exploring' : Exploring costs nonneg roots entry.1 (task.preconditionOf entry.2) (fun _ => False)
        { state with
          priorityQueue := rest
          explored := Function.update state.explored entry.2 true } := by
      constructor
      · exact exploring.sound
      · exact exploring.sources
      · refine ⟨restValid, fun prop propCost isLabel unsettled => ?_⟩
        rw [exploredCases, not_or] at unsettled
        have pending := exploring.queued.pending prop propCost isLabel unsettled.2
        rw [split, Multiset.mem_cons] at pending
        refine pending.resolve_left fun isEntry => unsettled.1 ?_
        rw [← isEntry]
      · intro prop propCost isLabel
        by_cases own : prop = entry.2
        · subst own
          have same : entry.1 = propCost := by simpa [labelled] using isLabel
          simp only [Function.update_self, if_true, ← same]
          exact gone.le
        · simp only [Function.update_of_ne own]
          exact (restCount propCost prop).trans (exploring.once prop propCost isLabel)
      · exact least
      · intro prop isExplored
        rw [exploredCases] at isExplored
        cases isExplored with
        | inl own => rw [own]; exact ⟨entry.1, labelled, le_refl _⟩
        | inr before => exact (exploring.settled prop before).mono larger
      · intro index
        rw [exploring.unsatisfied index, List.count_nil, RelaxedTask.count_preconditionOf,
           Nat.cast_zero, add_zero]
        norm_cast
        -- the occurrences of the popped proposition move from the count to the list
        generalize (task.op index).preconditions = premises
        induction premises with
        | nil => rfl
        | cons premise premises inductionHypothesis =>
          rw [List.countP_cons, List.countP_cons, List.count_cons, inductionHypothesis]
          by_cases own : premise = entry.2
          · subst own
            simp [unexplored]
            omega
          · simp [own]
            omega
      · exact exploring.applied
      · exact exploring.supported
      · exact exploring.supporting
    exact exploring'.satisfyPreconditions labelled (Function.update_self _ _ _)
      fun index member => RelaxedTask.mem_preconditionOf.mp member

theorem explore (fuel : ℕ) (exploring : Exploring costs nonneg roots key [] (fun _ => False) state) :
    ∃ finalKey, Exploring costs nonneg roots finalKey [] (fun _ => False)
      (Exploration.explore costs fuel state) := by
  induction fuel generalizing key state with
  | zero => exact ⟨key, exploring⟩
  | succ fuel inductionHypothesis =>
    unfold Exploration.explore
    cases popped : env.queue.pop state.priorityQueue with
    | none => exact ⟨key, exploring⟩
    | some top => exact inductionHypothesis (exploring.processEntry popped)

/-- A proposition of the state is enqueued. -/
theorem enqueueRoot {exempt : task.Op → Prop}
    (exploring : Exploring costs nonneg roots 0 todo exempt state)
    {root : RelaxedProposition} (isRoot : root ∈ task.initialPropositions) :
    Exploring costs nonneg (roots ++ [root]) 0 todo exempt (state.enqueueIfNecessary root 0) := by
  have derives : (queueGraph costs nonneg).Derives root 0 := .source isRoot
  have after := exploring.enqueueIfNecessary derives (le_refl 0)
  refine ⟨after.sound, ?_, after.queued, after.once, after.key_le, after.settled, after.unsatisfied,
    after.applied, after.supported, after.supporting⟩
  intro prop member
  cases List.mem_append.mp member with
  | inl before => exact after.sources prop before
  | inr isNew =>
    rw [List.mem_singleton.mp isNew]
    exact within_enqueueIfNecessary root 0

theorem setupExplorationQueueState (costs : task.Op → ℚ) (nonneg : ∀ index, 0 ≤ costs index)
    (draws : ℕ) :
    Exploring costs nonneg task.initialPropositions 0 [] (fun _ => False)
      (Exploration.setupExplorationQueueState task env draws) := by
  have start : Exploring costs nonneg [] 0 [] (fun _ => False)
      (setupExplorationQueue task env draws) := by
    constructor
    · intro prop cost labelled
      cases labelled
    · simp
    · refine ⟨fun entry member => ?_, fun prop cost labelled => ?_⟩
      · simp [entries, setupExplorationQueue, env.queue.entries_empty] at member
      · cases labelled
    · intro prop cost labelled
      cases labelled
    · intro entry member
      simp [entries, setupExplorationQueue, env.queue.entries_empty] at member
    · intro prop isExplored
      cases isExplored
    · intro index
      simp [setupExplorationQueue]
    · intro index _ nonempty satisfied
      simp only [setupExplorationQueue, Nat.cast_eq_zero] at satisfied
      exact absurd (List.length_eq_zero_iff.mp satisfied) nonempty
    · intro index _ nonempty satisfied
      simp only [setupExplorationQueue, Nat.cast_eq_zero] at satisfied
      exact absurd (List.length_eq_zero_iff.mp satisfied) nonempty
    · intro index supporter _ supports
      cases supports
  have folded : ∀ (rest roots : List RelaxedProposition) (state : Exploration task env),
      (∀ root ∈ rest, root ∈ task.initialPropositions) →
      Exploring costs nonneg roots 0 [] (fun _ => False) state →
      Exploring costs nonneg (roots ++ rest) 0 [] (fun _ => False)
        (rest.foldl (fun state prop => state.enqueueIfNecessary prop 0) state) := by
    intro rest
    induction rest with
    | nil => intro roots state _ exploring; simpa using exploring
    | cons root rest inductionHypothesis =>
      intro roots state members exploring
      rw [List.forall_mem_cons] at members
      have after := inductionHypothesis (roots ++ [root]) _ members.2 (exploring.enqueueRoot members.1)
      rwa [List.append_assoc] at after
  exact folded task.initialPropositions [] _ (fun _ => id) start

end Exploring

/-! ## The result -/

/-- What the first exploration leaves behind: costs that no operator improves, and supporters. -/
structure Settled (costs : task.Op → ℚ) (nonneg : ∀ index, 0 ≤ costs index)
    (state : Exploration task env) : Prop where
  cheapest : (queueGraph costs nonneg).Cheapest state.hMaxCost
  triggered : ∀ index, state.unsatisfiedPreconditions index = 0 ↔
    ∀ premise ∈ (task.op index).preconditions, (state.hMaxCost premise).isSome = true
  supported : ∀ index, (task.op index).preconditions ≠ [] →
    state.unsatisfiedPreconditions index = 0 → Supported state index
  supporting : ∀ index supporter, state.hMaxSupporter index = some supporter →
    supporter ∈ (task.op index).preconditions ∧ state.unsatisfiedPreconditions index = 0
  queue_empty : state.entries = 0

theorem Exploring.settled_of_queue_empty {nonneg : ∀ index, 0 ≤ costs index} {key : ℚ}
    {state : Exploration task env}
    (exploring : Exploring costs nonneg task.initialPropositions key [] (fun _ => False) state)
    (queueEmpty : state.entries = 0) : Settled costs nonneg state := by
  have explored_iff (prop : RelaxedProposition) :
      state.explored prop = true ↔ (state.hMaxCost prop).isSome = true := by
    constructor
    · intro isExplored
      obtain ⟨cost, labelled, -⟩ := exploring.settled prop isExplored
      simp [labelled]
    · intro isSome
      obtain ⟨cost, labelled⟩ := Option.isSome_iff_exists.mp isSome
      by_contra unexplored
      have pending := exploring.queued.pending prop cost labelled unexplored
      rw [queueEmpty] at pending
      exact Multiset.notMem_zero _ pending
  have triggered (index : task.Op) : state.unsatisfiedPreconditions index = 0 ↔
      ∀ premise ∈ (task.op index).preconditions, (state.hMaxCost premise).isSome = true := by
    rw [exploring.unsatisfied index, List.count_nil, Nat.cast_zero, add_zero, Nat.cast_eq_zero,
      List.countP_eq_zero]
    simp only [Bool.not_eq_true', Bool.not_eq_false, explored_iff]
  refine ⟨cheapest_of_closed exploring.sound ⟨exploring.sources, ?_⟩, triggered, ?_, ?_, queueEmpty⟩
  · intro index effect weight bound weighs _ premises
    simp only [queueGraph] at weighs
    split at weighs
    · rename_i applies
      have satisfied : state.unsatisfiedPreconditions index = 0 := by
        refine (triggered index).mpr fun premise member => ?_
        obtain ⟨cost, labelled, -⟩ := premises premise member
        simp [labelled]
      exact exploring.applied index id applies.2 satisfied effect applies.1 weight weighs bound premises
    · cases weighs
  · exact fun index nonempty satisfied => exploring.supported index id nonempty satisfied
  · exact fun index supporter supports => exploring.supporting index supporter id supports

theorem firstExploration_settled (costs : task.Op → ℚ) (nonneg : ∀ index, 0 ≤ costs index)
    (draws : ℕ) : Settled costs nonneg (firstExploration env costs draws) := by
  obtain ⟨key, exploring⟩ := (Exploring.setupExplorationQueueState costs nonneg draws).explore
    (setupExplorationQueueState task env draws).popBound
  exact exploring.settled_of_queue_empty (explore_queue_empty _ (le_refl _))

end Exploration

end CutPlan.Landmarks
