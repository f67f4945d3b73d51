import CutPlan.Landmarks.Cut

/-! # What the second exploration keeps

The propositions before the goal zone contain what the state reaches, and an operator whose supporter is
among them has each of its effects there, or is in the cut with an edge that costs no more.
-/

namespace CutPlan.Landmarks

open CutPlan.Lib

namespace Exploration

variable {task : RelaxedTask} {env : Environment} {costs : task.Op → ℚ}
  {state : Exploration task env} {goalZone : Finset RelaxedProposition}

namespace CutSearch

variable {search : CutSearch task} {index : task.Op}

/-- Nothing is taken back. -/
structure Grows (before after : CutSearch task) : Prop where
  beforeGoalZone : before.beforeGoalZone ⊆ after.beforeGoalZone
  cut : before.cut ⊆ after.cut

/-- Each effect of the operator is before the goal zone, or some entry of the cut costs no more than
reaching it. -/
def FollowsEdges (costs : task.Op → ℚ) (search : CutSearch task) (index : task.Op) : Prop :=
  ∀ effect ∈ (task.op index).effects, ∀ m, cutMultiplicity index effect = some m →
    effect ∈ search.beforeGoalZone ∨
      ∃ least, (index, least) ∈ search.cut ∧ least * costs index ≤ m * costs index

theorem FollowsEdges.mono {after : CutSearch task} (follows : FollowsEdges costs search index)
    (grows : Grows search after) : FollowsEdges costs after index := by
  intro effect member m multiplicity
  cases follows effect member m multiplicity with
  | inl reached => exact .inl (grows.beforeGoalZone reached)
  | inr cheaper =>
    obtain ⟨least, inCut, le⟩ := cheaper
    exact .inr ⟨least, grows.cut inCut, le⟩

/-! ## Reaching the effects of one operator -/

/-- What the loop over the effects outside of the goal zone does. -/
structure Reaches (costs : task.Op → ℚ) (goalZone : Finset RelaxedProposition)
    (minCutCost : Option ℚ) (index : task.Op) (effects : List RelaxedProposition)
    (before after : CutSearch task) : Prop where
  grows : before.beforeGoalZone ⊆ after.beforeGoalZone
  cut : after.cut = before.cut
  queue : before.queue ⊆ after.queue
  added : ∀ prop ∈ after.beforeGoalZone, prop ∉ before.beforeGoalZone →
    prop ∈ effects ∧ prop ∉ goalZone ∧ prop ∈ after.queue ∧ (cutMultiplicity index prop).isSome
  queued : ∀ prop ∈ after.queue, prop ∈ before.queue ∨ prop ∈ after.beforeGoalZone
  reached : ∀ effect ∈ effects, ∀ m, cutMultiplicity index effect = some m →
    effect ∈ after.beforeGoalZone ∨ effect ∈ goalZone ∨ ∃ least ∈ minCutCost, least ≤ m * costs index
  bound : after.popBound ≤ before.popBound

theorem popBound_insert {effect : RelaxedProposition} (member : effect ∈ (task.op index).effects)
    (unreached : effect ∉ search.beforeGoalZone) :
    ({ search with
      beforeGoalZone := insert effect search.beforeGoalZone
      queue := effect :: search.queue } : CutSearch task).popBound ≤ search.popBound := by
  have inAll : effect ∈ ((List.finRange task.relaxedOperators.length).flatMap fun index =>
      (task.op index).effects).toFinset :=
    List.mem_toFinset.mpr (List.mem_flatMap.mpr ⟨index, List.mem_finRange index, member⟩)
  unfold popBound
  simp only [List.length_cons]
  rw [Finset.sdiff_insert]
  have fewer := Finset.card_erase_lt_of_mem (Finset.mem_sdiff.mpr ⟨inAll, unreached⟩)
  omega

theorem reachEffects_spec (minCutCost : Option ℚ) (effects : List RelaxedProposition)
    (subset : effects ⊆ (task.op index).effects) (search : CutSearch task) :
    Reaches costs goalZone minCutCost index effects search
      (effects.foldl (reachEffect costs goalZone minCutCost index) search) := by
  induction effects generalizing search with
  | nil =>
    exact ⟨Finset.Subset.refl _, rfl, List.Subset.refl _, fun prop now before => absurd now before,
      fun prop member => .inl member, by simp, le_refl _⟩
  | cons effect effects inductionHypothesis =>
    have member : effect ∈ (task.op index).effects := subset List.mem_cons_self
    -- one effect
    have head : Reaches costs goalZone minCutCost index [effect] search
        (reachEffect costs goalZone minCutCost index search effect) := by
      unfold reachEffect
      split
      · rename_i applies
        obtain ⟨unreached, outside, m, isM, -⟩ := applies
        refine ⟨Finset.subset_insert _ _, rfl, fun _ => List.mem_cons_of_mem _, ?_, ?_, ?_,
          popBound_insert member unreached⟩
        · intro prop now before
          have isEffect : prop = effect := (Finset.mem_insert.mp now).resolve_right before
          rw [isEffect]
          exact ⟨by simp, outside, List.mem_cons_self, by rw [Option.mem_def.mp isM]; rfl⟩
        · intro prop inQueue
          cases List.mem_cons.mp inQueue with
          | inl isEffect => exact .inr (isEffect ▸ Finset.mem_insert_self _ _)
          | inr before => exact .inl before
        · intro other isOther _ _
          rw [List.mem_singleton.mp isOther]
          exact .inl (Finset.mem_insert_self _ _)
      · rename_i blocked
        refine ⟨Finset.Subset.refl _, rfl, List.Subset.refl _, fun prop now before => absurd now before,
          fun prop inQueue => .inl inQueue, ?_, le_refl _⟩
        intro other isOther m multiplicity
        rw [List.mem_singleton.mp isOther] at multiplicity ⊢
        by_cases reached : effect ∈ search.beforeGoalZone
        · exact .inl reached
        by_cases inZone : effect ∈ goalZone
        · exact .inr (.inl inZone)
        -- the edge is not cheaper than the cut
        by_contra none
        push Not at none
        exact blocked ⟨reached, inZone, m, multiplicity, none.2.2⟩
    have tail := inductionHypothesis (fun other isOther => subset (List.mem_cons_of_mem _ isOther))
      (reachEffect costs goalZone minCutCost index search effect)
    rw [List.foldl_cons]
    refine ⟨head.grows.trans tail.grows, tail.cut.trans head.cut, List.Subset.trans head.queue tail.queue,
      ?_, ?_, ?_, tail.bound.trans head.bound⟩
    · intro prop now before
      by_cases early : prop ∈ (reachEffect costs goalZone minCutCost index search effect).beforeGoalZone
      · obtain ⟨isEffect, outside, inQueue, hasMultiplicity⟩ := head.added prop early before
        exact ⟨List.mem_cons.mpr (.inl (List.mem_singleton.mp isEffect)), outside, tail.queue inQueue,
          hasMultiplicity⟩
      · obtain ⟨isEffect, rest⟩ := tail.added prop now early
        exact ⟨List.mem_cons_of_mem _ isEffect, rest⟩
    · intro prop inQueue
      cases tail.queued prop inQueue with
      | inr now => exact .inr now
      | inl early =>
        cases head.queued prop early with
        | inl before => exact .inl before
        | inr now => exact .inr (tail.grows now)
    · intro other isOther m multiplicity
      cases List.mem_cons.mp isOther with
      | inr inRest => exact tail.reached other inRest m multiplicity
      | inl isEffect =>
        cases head.reached other (List.mem_singleton.mpr isEffect) m multiplicity with
        | inl now => exact .inl (tail.grows now)
        | inr otherwise => exact .inr otherwise

/-! ## The invariant -/

/-- The invariant while the operators in the list have still to be visited from the proposition. -/
structure Searching (costs : task.Op → ℚ) (state : Exploration task env)
    (goalZone : Finset RelaxedProposition) (current : RelaxedProposition) (todo : List task.Op)
    (search : CutSearch task) : Prop where
  initial : ∀ prop ∈ task.initialPropositions, prop ∈ search.beforeGoalZone
  outside : ∀ prop ∈ search.beforeGoalZone, prop ∈ task.initialPropositions ∨
    prop ∉ goalZone ∧ ∃ index supporter, state.hMaxSupporter index = some supporter ∧
      prop ∈ (task.op index).effects ∧ (cutMultiplicity index prop).isSome
  queue : ∀ prop ∈ search.queue, prop ∈ search.beforeGoalZone
  entries : ∀ entry ∈ search.cut, ∃ supporter ∈ search.beforeGoalZone,
    state.hMaxSupporter entry.1 = some supporter ∧ ∃ effect ∈ (task.op entry.1).effects,
      effect ∈ goalZone ∧ effect ∉ task.initialPropositions ∧
        cutMultiplicity entry.1 effect = some entry.2
  cutFollowed : ∀ entry ∈ search.cut, FollowsEdges costs search entry.1
  followed : ∀ supporter ∈ search.beforeGoalZone, supporter ∉ search.queue → ∀ index,
    state.hMaxSupporter index = some supporter → supporter ∈ (task.op index).preconditions →
      FollowsEdges costs search index ∨ (supporter = current ∧ index ∈ todo)

theorem mem_cutEntries {index other : task.Op} {m : ℚ} :
    (other, m) ∈ search.cutEntries goalZone index ↔ other = index ∧
      ∃ effect ∈ (task.op index).effects, effect ∈ goalZone ∧ effect ∉ search.beforeGoalZone ∧
        cutMultiplicity index effect = some m := by
  simp only [cutEntries, inGoalZone, List.mem_filterMap, List.mem_filter, decide_eq_true_eq,
    Option.map_eq_some_iff, Prod.mk.injEq]
  constructor
  · rintro ⟨effect, ⟨member, inZone, unreached⟩, value, multiplicity, rfl, rfl⟩
    exact ⟨rfl, effect, member, inZone, unreached, multiplicity⟩
  · rintro ⟨rfl, effect, member, inZone, unreached, multiplicity⟩
    exact ⟨effect, ⟨member, inZone, unreached⟩, m, multiplicity, rfl, rfl⟩

/-- The least cost of the entries is that of one of them. -/
theorem exists_of_min {added : List (task.Op × ℚ)} {least : ℚ}
    (isLeast : (added.map (edgeCost costs)).min? = some least) :
    ∃ entry ∈ added, edgeCost costs entry = least := by
  have member := List.min?_mem isLeast
  simpa using member

theorem Searching.visitOperator {current : RelaxedProposition} {todo : List task.Op}
    (searching : Searching costs state goalZone current (index :: todo) search)
    (reached : current ∈ search.beforeGoalZone) :
    Searching costs state goalZone current todo (search.visitOperator costs state goalZone current index) ∧
      current ∈ (search.visitOperator costs state goalZone current index).beforeGoalZone ∧
      (search.visitOperator costs state goalZone current index).popBound ≤ search.popBound := by
  unfold CutSearch.visitOperator
  split
  · rename_i applies
    obtain ⟨supports, -⟩ := applies
    have spec : Reaches costs goalZone
        ((search.cutEntries goalZone index).map (edgeCost costs)).min? index (task.op index).effects
        { search with cut := search.cut ++ search.cutEntries goalZone index } _ :=
      reachEffects_spec _ _ (List.Subset.refl _) _
    generalize (task.op index).effects.foldl _ _ = after at spec
    have inCut {entry : task.Op × ℚ} :
        entry ∈ after.cut ↔ entry ∈ search.cut ∨ entry ∈ search.cutEntries goalZone index := by
      rw [spec.cut, List.mem_append]
    have grows : Grows search after := ⟨spec.grows, fun entry member => inCut.mpr (.inl member)⟩
    have follows : FollowsEdges costs after index := by
      intro effect member m multiplicity
      rcases spec.reached effect member m multiplicity with reached | inZone | ⟨least, isLeast, le⟩
      · exact .inl reached
      · by_cases early : effect ∈ search.beforeGoalZone
        · exact .inl (spec.grows early)
        · refine .inr ⟨m, inCut.mpr (.inr ?_), le_refl _⟩
          exact mem_cutEntries.mpr ⟨rfl, effect, member, inZone, early, multiplicity⟩
      · -- the effect costs at least as much as the cheapest new entry
        obtain ⟨entry, isAdded, cost⟩ := exists_of_min (Option.mem_def.mp isLeast)
        have own : entry.1 = index := (mem_cutEntries.mp isAdded).1
        refine .inr ⟨entry.2, inCut.mpr (.inr (own ▸ isAdded)), ?_⟩
        rw [← cost, edgeCost, own] at le
        exact le
    refine ⟨⟨?_, ?_, ?_, ?_, ?_, ?_⟩, spec.grows reached, spec.bound⟩
    · exact fun prop isInitial => spec.grows (searching.initial prop isInitial)
    · intro prop now
      by_cases early : prop ∈ search.beforeGoalZone
      · exact searching.outside prop early
      · obtain ⟨isEffect, outside, -, hasMultiplicity⟩ := spec.added prop now early
        exact .inr ⟨outside, index, current, supports, isEffect, hasMultiplicity⟩
    · intro prop inQueue
      cases spec.queued prop inQueue with
      | inl early => exact spec.grows (searching.queue prop early)
      | inr now => exact now
    · intro entry member
      cases inCut.mp member with
      | inl early =>
        obtain ⟨supporter, isBefore, rest⟩ := searching.entries entry early
        exact ⟨supporter, spec.grows isBefore, rest⟩
      | inr isAdded =>
        obtain ⟨own, effect, isEffect, inZone, unreached, multiplicity⟩ := mem_cutEntries.mp isAdded
        refine ⟨current, spec.grows reached, own ▸ supports, effect, own ▸ isEffect, inZone, ?_, ?_⟩
        · exact fun isInitial => unreached (searching.initial effect isInitial)
        · exact own ▸ multiplicity
    · intro entry member
      cases inCut.mp member with
      | inl early => exact (searching.cutFollowed entry early).mono grows
      | inr isAdded => exact (mem_cutEntries.mp isAdded).1 ▸ follows
    · intro supporter isBefore unqueued other otherSupports isPremise
      by_cases early : supporter ∈ search.beforeGoalZone
      · cases searching.followed supporter early (fun inQueue => unqueued (spec.queue inQueue)) other
          otherSupports isPremise with
        | inl followed => exact .inl (followed.mono grows)
        | inr stillOpen =>
          cases List.mem_cons.mp stillOpen.2 with
          | inl own => exact .inl (own ▸ follows)
          | inr later => exact .inr ⟨stillOpen.1, later⟩
      · exact absurd (spec.added supporter isBefore early).2.2.1 unqueued
  · rename_i skipped
    refine ⟨⟨searching.initial, searching.outside, searching.queue, searching.entries,
      searching.cutFollowed, ?_⟩, reached, le_refl _⟩
    intro supporter isBefore unqueued other otherSupports isPremise
    cases searching.followed supporter isBefore unqueued other otherSupports isPremise with
    | inl followed => exact .inl followed
    | inr stillOpen =>
      obtain ⟨rfl, inTodo⟩ := stillOpen
      cases List.mem_cons.mp inTodo with
      | inr later => exact .inr ⟨rfl, later⟩
      | inl own =>
        -- the operator is in the cut already, so it has been visited
        subst own
        rw [not_and, not_not] at skipped
        obtain ⟨entry, inCut, isEntry⟩ := List.mem_map.mp (skipped otherSupports)
        exact .inl (isEntry ▸ searching.cutFollowed entry inCut)

theorem Searching.visitOperators {current : RelaxedProposition} {todo : List task.Op}
    (searching : Searching costs state goalZone current todo search)
    (reached : current ∈ search.beforeGoalZone) :
    Searching costs state goalZone current []
        (todo.foldl (CutSearch.visitOperator costs state goalZone current) search) ∧
      (todo.foldl (CutSearch.visitOperator costs state goalZone current) search).popBound ≤
        search.popBound := by
  induction todo generalizing search with
  | nil => exact ⟨searching, le_refl _⟩
  | cons index todo inductionHypothesis =>
    obtain ⟨after, afterReached, bound⟩ := searching.visitOperator reached
    obtain ⟨final, finalBound⟩ := inductionHypothesis after afterReached
    exact ⟨final, finalBound.trans bound⟩

/-- With enough fuel the search ends with an empty queue. -/
theorem Searching.run {current : RelaxedProposition} (fuel : ℕ)
    (searching : Searching costs state goalZone current [] search) (enough : search.popBound ≤ fuel) :
    ∃ last, Searching costs state goalZone last [] (CutSearch.run costs state goalZone fuel search) ∧
      (CutSearch.run costs state goalZone fuel search).queue = [] := by
  induction fuel generalizing current search with
  | zero =>
    have none : search.queue.length = 0 := by
      unfold popBound at enough
      omega
    exact ⟨current, searching, List.length_eq_zero_iff.mp none⟩
  | succ fuel inductionHypothesis =>
    unfold CutSearch.run
    cases queue : search.queue with
    | nil => exact ⟨current, searching, queue⟩
    | cons prop rest =>
      have reached : prop ∈ search.beforeGoalZone := searching.queue prop (by simp [queue])
      have popped : Searching costs state goalZone prop (task.preconditionOf prop)
          { search with queue := rest } := by
        refine ⟨searching.initial, searching.outside, ?_, searching.entries, searching.cutFollowed, ?_⟩
        · exact fun other inRest => searching.queue other (by simp [queue, inRest])
        · intro supporter isBefore unqueued index supports isPremise
          by_cases own : supporter = prop
          · subst own
            exact .inr ⟨rfl, RelaxedTask.mem_preconditionOf.mpr isPremise⟩
          · have notQueued : supporter ∉ search.queue := by
              rw [queue, List.mem_cons, not_or]
              exact ⟨own, unqueued⟩
            cases searching.followed supporter isBefore notQueued index supports isPremise with
            | inl followed => exact .inl followed
            | inr stillOpen => simp at stillOpen
      obtain ⟨after, bound⟩ := popped.visitOperators reached
      refine inductionHypothesis after ?_
      unfold popBound at enough bound ⊢
      rw [queue, List.length_cons] at enough
      simp only at bound
      omega

theorem Searching.start :
    Searching costs state goalZone .artificialPrecondition [] (CutSearch.start task) where
  initial := fun prop isInitial => List.mem_toFinset.mpr isInitial
  outside := fun prop isBefore => .inl (List.mem_toFinset.mp isBefore)
  queue := by
    intro prop inQueue
    simp only [CutSearch.start, List.mem_reverse, List.mem_cons, List.mem_append] at inQueue
    simp only [CutSearch.start, List.mem_toFinset, RelaxedTask.initialPropositions, List.mem_append,
      List.mem_singleton]
    tauto
  entries := by simp [CutSearch.start]
  cutFollowed := by simp [CutSearch.start]
  followed := by
    intro supporter isBefore unqueued
    exfalso
    simp only [CutSearch.start, List.mem_toFinset, RelaxedTask.initialPropositions, List.mem_append,
      List.mem_singleton] at isBefore
    simp only [CutSearch.start, List.mem_reverse, List.mem_cons, List.mem_append] at unqueued
    tauto

end CutSearch

open CutSearch

/-- What the second exploration ends with. -/
structure IsCut (costs : task.Op → ℚ) (state : Exploration task env) (search : CutSearch task) :
    Prop where
  initial : ∀ prop ∈ task.initialPropositions, prop ∈ search.beforeGoalZone
  outside : ∀ prop ∈ search.beforeGoalZone, prop ∈ task.initialPropositions ∨
    prop ∉ markGoalPlateau costs state ∧ ∃ index supporter,
      state.hMaxSupporter index = some supporter ∧ prop ∈ (task.op index).effects ∧
        (cutMultiplicity index prop).isSome
  entries : ∀ entry ∈ search.cut, ∃ supporter ∈ search.beforeGoalZone,
    state.hMaxSupporter entry.1 = some supporter ∧ ∃ effect ∈ (task.op entry.1).effects,
      effect ∈ markGoalPlateau costs state ∧ effect ∉ task.initialPropositions ∧
        cutMultiplicity entry.1 effect = some entry.2
  followed : ∀ supporter ∈ search.beforeGoalZone, ∀ index,
    state.hMaxSupporter index = some supporter → supporter ∈ (task.op index).preconditions →
      FollowsEdges costs search index

theorem secondExploration_isCut (costs : task.Op → ℚ) (state : Exploration task env) :
    IsCut costs state (secondExploration costs state) := by
  obtain ⟨last, searching, queueEmpty⟩ := Searching.run _ Searching.start (le_refl _)
  refine ⟨searching.initial, searching.outside, searching.entries, ?_⟩
  intro supporter isBefore index supports isPremise
  cases searching.followed supporter isBefore (by simp [queueEmpty]) index supports isPremise with
  | inl followed => exact followed
  | inr stillOpen => simp at stillOpen

end Exploration

end CutPlan.Landmarks
