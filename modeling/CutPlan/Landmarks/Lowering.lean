import CutPlan.Landmarks.ComputeLandmarks
import CutPlan.Landmarks.HMaxInvariant
import CutPlan.Lib.LabelLowering

/-! # What the incremental exploration keeps

Costs are only lowered, along chains of edges.  Between two pops each supporter that has become cheaper
waits in the queue, and each operator carries the cost of its supporter to its effects.
-/

namespace CutPlan.Landmarks

open CutPlan.Lib CutPlan.Lib.RuleGraph

namespace Exploration

variable {task : RelaxedTask} {env : Environment} {costs : task.Op → ℚ}

/-! ## Chains of edges -/

def targets (task : RelaxedTask) : Finset RelaxedProposition :=
  ((edges task).map Prod.snd).toFinset

def weights (costs : task.Op → ℚ) : Finset ℚ :=
  ((edges task).filterMap fun edge => queueWeight costs edge.1 edge.2).toFinset

def startCosts (state : Exploration task env) : Finset ℚ :=
  ((allPreconditions task).map state.costOf).toFinset

theorem mem_edges {index : task.Op} {effect : RelaxedProposition} :
    (index, effect) ∈ edges task ↔ effect ∈ (task.op index).effects := by
  simp [edges]

theorem mem_allPreconditions {index : task.Op} {premise : RelaxedProposition}
    (member : premise ∈ (task.op index).preconditions) : premise ∈ allPreconditions task :=
  List.mem_flatMap.mpr ⟨index, List.mem_finRange index, member⟩

theorem mem_targets {index : task.Op} {effect : RelaxedProposition}
    (member : effect ∈ (task.op index).effects) : effect ∈ targets task :=
  List.mem_toFinset.mpr (List.mem_map.mpr ⟨(index, effect), mem_edges.mpr member, rfl⟩)

theorem mem_weights {index : task.Op} {effect : RelaxedProposition} {weight : ℚ}
    (member : effect ∈ (task.op index).effects) (weighs : queueWeight costs index effect = some weight) :
    weight ∈ weights costs :=
  List.mem_toFinset.mpr (List.mem_filterMap.mpr ⟨(index, effect), mem_edges.mpr member, weighs⟩)

/-- The costs that chains of edges can give. -/
def values (costs : task.Op → ℚ) (starts : Finset ℚ) : Finset ℚ :=
  chainCosts starts (weights costs) (targets task).card

theorem pops_le_lowerBound (costs : task.Op → ℚ) (state : Exploration task env) :
    state.entries.card + totalRoom (targets task) (values costs state.startCosts) state.hMaxCost ≤
      state.lowerBound := by
  have targetCount : (targets task).card ≤ (edges task).length :=
    (List.toFinset_card_le _).trans_eq (List.length_map _)
  have weightCount : (weights costs).card ≤ (edges task).length :=
    (List.toFinset_card_le _).trans (List.length_filterMap_le _ _)
  have startCount : state.startCosts.card ≤ (allPreconditions task).length :=
    (List.toFinset_card_le _).trans_eq (List.length_map _)
  unfold lowerBound
  refine Nat.add_le_add_left ?_ _
  calc totalRoom (targets task) (values costs state.startCosts) state.hMaxCost
      ≤ (targets task).card * (values costs state.startCosts).card := totalRoom_le _ _ _
    _ ≤ (targets task).card *
          (state.startCosts.card * ((weights costs).card + 1) ^ (targets task).card) :=
        Nat.mul_le_mul_left _ (card_chainCosts_le _ _ _)
    _ ≤ (edges task).length * ((allPreconditions task).length *
          ((edges task).length + 1) ^ (edges task).length) := by
        refine Nat.mul_le_mul targetCount (Nat.mul_le_mul startCount ?_)
        calc ((weights costs).card + 1) ^ (targets task).card
            ≤ ((edges task).length + 1) ^ (targets task).card :=
              Nat.pow_le_pow_left (Nat.succ_le_succ weightCount) _
          _ ≤ ((edges task).length + 1) ^ (edges task).length :=
              Nat.pow_le_pow_right (Nat.succ_pos _) targetCount

/-! ## Pushing -/

section Pushing

variable {state after : Exploration task env}

theorem within_iff {prop : RelaxedProposition} {bound : ℚ} :
    Within state.hMaxCost prop bound ↔
      (state.hMaxCost prop).isSome = true ∧ state.costOf prop ≤ bound := by
  unfold Within costOf
  cases state.hMaxCost prop with
  | none => simp
  | some cost => simp

/-- What a sequence of pushes does. -/
structure Pushed (state after : Exploration task env) : Prop where
  same : SameOperators state after
  cheaper : ∀ prop bound, Within state.hMaxCost prop bound → Within after.hMaxCost prop bound
  entries : ∀ entry ∈ state.entries, entry ∈ after.entries
  lowered : ∀ prop, after.hMaxCost prop = state.hMaxCost prop ∨
    (after.costOf prop, prop) ∈ after.entries

theorem Pushed.refl : Pushed state state :=
  ⟨.refl, fun _ _ => id, fun _ => id, fun _ => .inl rfl⟩

theorem Pushed.trans {middle : Exploration task env} (first : Pushed state middle)
    (second : Pushed middle after) : Pushed state after := by
  refine ⟨first.same.trans second.same,
    fun prop bound within => second.cheaper prop bound (first.cheaper prop bound within),
    fun entry member => second.entries entry (first.entries entry member), fun prop => ?_⟩
  cases second.lowered prop with
  | inr pending => exact .inr pending
  | inl unchanged =>
    cases first.lowered prop with
    | inl kept => exact .inl (unchanged.trans kept)
    | inr pending =>
      have sameCost : after.costOf prop = middle.costOf prop := by simp [costOf, unchanged]
      exact .inr (sameCost ▸ second.entries _ pending)

theorem enqueueIfNecessary_pushed (prop : RelaxedProposition) (cost : ℚ) :
    Pushed state (state.enqueueIfNecessary prop cost) := by
  refine ⟨enqueueIfNecessary_sameOperators prop cost,
    fun other bound within => enqueueIfNecessary_within within prop cost, ?_, ?_⟩
  · intro entry member
    cases enqueueIfNecessary_cases state prop cost with
    | inl kept => rw [kept.2]; exact member
    | inr lowered =>
      rw [lowered.2]
      simp only [entries, env.queue.entries_push]
      exact Multiset.mem_cons_of_mem member
  · intro other
    cases enqueueIfNecessary_cases state prop cost with
    | inl kept => rw [kept.2]; exact .inl rfl
    | inr lowered =>
      rw [lowered.2]
      by_cases own : other = prop
      · subst own
        right
        simp [entries, env.queue.entries_push, costOf]
      · exact .inl (Function.update_of_ne own _ _)

end Pushing

/-! ## Costs -/

/-- The costs are sums along chains and belong to what can be reached, and so many pops remain.  If they
are meant to be exact, they can be derived. -/
structure Bounded (costs : task.Op → ℚ) (nonneg : ∀ index, 0 ≤ costs index) (starts : Finset ℚ)
    (pops : ℕ) (exact : Prop) (state : Exploration task env) : Prop where
  reached : ∀ prop, (state.hMaxCost prop).isSome = true ↔ (queueGraph costs nonneg).Reachable prop
  sources : ∀ prop ∈ task.initialPropositions, Within state.hMaxCost prop 0
  chained : ∀ prop ∈ allPreconditions task,
    Chained (targets task) starts (weights costs) state.hMaxCost (state.costOf prop)
  room : state.entries.card + totalRoom (targets task) (values costs starts) state.hMaxCost ≤ pops
  sound : exact → (queueGraph costs nonneg).Sound state.hMaxCost

section Bounded

variable {nonneg : ∀ index, 0 ≤ costs index} {starts : Finset ℚ} {pops : ℕ} {exact : Prop}
  {state : Exploration task env} {index : task.Op} {supporter effect : RelaxedProposition} {weight : ℚ}

/-- One push from a precondition that is as dear as all others, if costs are meant to be exact. -/
theorem Bounded.enqueueIfNecessary (bounded : Bounded costs nonneg starts pops exact state)
    (isPremise : supporter ∈ (task.op index).preconditions)
    (labelled : ∀ premise ∈ (task.op index).preconditions, (state.hMaxCost premise).isSome = true)
    (dearest : exact → ∀ premise ∈ (task.op index).preconditions,
      Within state.hMaxCost premise (state.costOf supporter))
    (isEffect : effect ∈ (task.op index).effects)
    (weighs : queueWeight costs index effect = some weight) :
    Bounded costs nonneg starts pops exact
      (state.enqueueIfNecessary effect (state.costOf supporter + weight)) := by
  have edge : (queueGraph costs nonneg).weight index effect = some weight := by
    simp only [queueGraph]
    rw [if_pos ⟨isEffect, List.ne_nil_of_mem isPremise⟩]
    exact weighs
  have pushed : Pushed state (state.enqueueIfNecessary effect (state.costOf supporter + weight)) :=
    enqueueIfNecessary_pushed _ _
  have weightNonneg := queueWeight_nonneg nonneg weighs
  constructor
  · intro prop
    constructor
    · intro isSome
      by_cases own : prop = effect
      · subst own
        exact .rule edge fun premise member => (bounded.reached premise).mp (labelled premise member)
      · rw [← bounded.reached]
        cases enqueueIfNecessary_cases state effect (state.costOf supporter + weight) with
        | inl kept => rwa [kept.2] at isSome
        | inr lowered =>
          rw [lowered.2] at isSome
          simpa only [Function.update_of_ne own] using isSome
    · intro reachable
      have before := (bounded.reached prop).mpr reachable
      exact (within_iff.mp (pushed.cheaper prop _ (within_iff.mpr ⟨before, le_refl _⟩))).1
  · exact fun prop isInitial => pushed.cheaper prop 0 (bounded.sources prop isInitial)
  · intro prop member
    have chainedBefore := bounded.chained prop member
    cases enqueueIfNecessary_cases state effect (state.costOf supporter + weight) with
    | inl kept => rw [kept.2]; exact chainedBefore
    | inr lowered =>
      by_cases own : prop = effect
      · subst own
        have isCost : (state.enqueueIfNecessary prop (state.costOf supporter + weight)).costOf prop =
            state.costOf supporter + weight := by
          rw [lowered.2]
          simp [costOf]
        rw [isCost]
        exact (bounded.chained supporter (mem_allPreconditions isPremise)).extend
          (mem_targets isEffect) (mem_weights isEffect weighs) weightNonneg lowered.1
          (within_enqueueIfNecessary _ _) pushed.cheaper
      · have sameCost : (state.enqueueIfNecessary effect (state.costOf supporter + weight)).costOf prop =
            state.costOf prop := by
          rw [lowered.2]
          simp [costOf, Function.update_of_ne own]
        rw [sameCost]
        exact chainedBefore.mono pushed.cheaper
  · cases enqueueIfNecessary_cases state effect (state.costOf supporter + weight) with
    | inl kept => rw [kept.2]; exact bounded.room
    | inr lowered =>
      have isValue : state.costOf supporter + weight ∈ values costs starts :=
        ((bounded.chained supporter (mem_allPreconditions isPremise)).extend
          (mem_targets isEffect) (mem_weights isEffect weighs) weightNonneg lowered.1
          (within_enqueueIfNecessary _ _) pushed.cheaper).mem
      have less := totalRoom_update (mem_targets isEffect) isValue lowered.1
      have before := bounded.room
      rw [lowered.2]
      simp only [entries, env.queue.entries_push, Multiset.card_cons] at before ⊢
      omega
  · intro isExact
    refine enqueueIfNecessary_sound (bounded.sound isExact) (.rule state.costOf edge ?_ ?_ ?_)
    · have supporterSome := labelled supporter isPremise
      obtain ⟨cost, isCost⟩ := Option.isSome_iff_exists.mp supporterSome
      simpa [costOf, isCost] using (bounded.sound isExact supporter cost isCost).nonneg
    · intro premise member
      obtain ⟨cost, isCost⟩ := Option.isSome_iff_exists.mp (labelled premise member)
      simpa [costOf, isCost] using bounded.sound isExact premise cost isCost
    · exact fun premise member => (within_iff.mp (dearest isExact premise member)).2

/-- The supporter itself is not lowered by what is pushed from it. -/
theorem costOf_enqueueIfNecessary_of_le {cost : ℚ}
    (labelled : (state.hMaxCost supporter).isSome = true) (le : state.costOf supporter ≤ cost) :
    (state.enqueueIfNecessary effect cost).costOf supporter = state.costOf supporter := by
  unfold costOf
  rw [hMaxCost_enqueueIfNecessary_of_within (within_iff.mpr ⟨labelled, le⟩)]

/-- Carrying the cost of a supporter to the effects. -/
theorem Bounded.updateEffects (bounded : Bounded costs nonneg starts pops exact state)
    (isPremise : supporter ∈ (task.op index).preconditions)
    (labelled : ∀ premise ∈ (task.op index).preconditions, (state.hMaxCost premise).isSome = true)
    (dearest : exact → ∀ premise ∈ (task.op index).preconditions,
      Within state.hMaxCost premise (state.costOf supporter)) :
    Bounded costs nonneg starts pops exact (state.updateEffects costs supporter index) ∧
      Pushed state (state.updateEffects costs supporter index) ∧
      ∀ effect ∈ (task.op index).effects, ∀ weight, queueWeight costs index effect = some weight →
        Within (state.updateEffects costs supporter index).hMaxCost effect
          (state.costOf supporter + weight) := by
  have folded : ∀ effects : List RelaxedProposition, effects ⊆ (task.op index).effects →
      ∀ state : Exploration task env, Bounded costs nonneg starts pops exact state →
        (∀ premise ∈ (task.op index).preconditions, (state.hMaxCost premise).isSome = true) →
        (exact → ∀ premise ∈ (task.op index).preconditions,
          Within state.hMaxCost premise (state.costOf supporter)) →
        Bounded costs nonneg starts pops exact
            (effects.foldl (fun state effect => state.updateQueue costs supporter effect index) state) ∧
          Pushed state
            (effects.foldl (fun state effect => state.updateQueue costs supporter effect index) state) ∧
          ∀ effect ∈ effects, ∀ weight, queueWeight costs index effect = some weight →
            Within (effects.foldl (fun state effect => state.updateQueue costs supporter effect index)
              state).hMaxCost effect (state.costOf supporter + weight) := by
    intro effects
    induction effects with
    | nil => exact fun _ state bounded _ _ => ⟨bounded, .refl, by simp⟩
    | cons effect effects inductionHypothesis =>
      intro subset state bounded labelled dearest
      have isEffect := subset List.mem_cons_self
      have restSubset : effects ⊆ (task.op index).effects :=
        fun other isOther => subset (List.mem_cons_of_mem _ isOther)
      rw [List.foldl_cons, updateQueue_eq]
      cases weighs : queueWeight costs index effect with
      | none =>
        obtain ⟨restBounded, restPushed, restEffects⟩ :=
          inductionHypothesis restSubset state bounded labelled dearest
        refine ⟨restBounded, restPushed, ?_⟩
        rw [List.forall_mem_cons]
        exact ⟨by simp [weighs], restEffects⟩
      | some weight =>
        simp only [Option.elim_some]
        have pushed : Pushed state
            (state.enqueueIfNecessary effect (state.costOf supporter + weight)) :=
          enqueueIfNecessary_pushed _ _
        have sameCost : (state.enqueueIfNecessary effect (state.costOf supporter + weight)).costOf
            supporter = state.costOf supporter :=
          costOf_enqueueIfNecessary_of_le (labelled supporter isPremise)
            (le_add_of_nonneg_right (queueWeight_nonneg nonneg weighs))
        have reached : Within (state.enqueueIfNecessary effect
            (state.costOf supporter + weight)).hMaxCost effect (state.costOf supporter + weight) :=
          within_enqueueIfNecessary _ _
        have after := bounded.enqueueIfNecessary isPremise labelled dearest isEffect weighs
        obtain ⟨restBounded, restPushed, restEffects⟩ := inductionHypothesis restSubset _ after
          (fun premise member => (within_iff.mp (pushed.cheaper premise _
            (within_iff.mpr ⟨labelled premise member, le_refl _⟩))).1)
          (fun isExact premise member => by
            rw [sameCost]
            exact pushed.cheaper premise _ (dearest isExact premise member))
        refine ⟨restBounded, pushed.trans restPushed, ?_⟩
        rw [sameCost] at restEffects
        rw [List.forall_mem_cons]
        refine ⟨fun otherWeight isWeight => ?_, restEffects⟩
        rw [weighs] at isWeight
        cases isWeight
        exact restPushed.cheaper _ _ reached
  exact folded _ (fun _ => id) state bounded labelled dearest

end Bounded

end Exploration

end CutPlan.Landmarks
