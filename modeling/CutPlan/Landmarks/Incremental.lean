import CutPlan.Landmarks.Lowering

/-! # The incremental exploration

After the costs of some operators have been reduced, enqueuing their effects and lowering what follows
leaves the state as consistent as it was.  The costs are exact, if each operator that is enqueued still
has one of its dearest preconditions as supporter.
-/

namespace CutPlan.Landmarks

open CutPlan.Lib CutPlan.Lib.RuleGraph

namespace Exploration

variable {task : RelaxedTask} {env : Environment} {costs : task.Op → ℚ}

/-! ## Supporters -/

/-- Operators have supporters as soon as their preconditions are reached. -/
structure Founded (costs : task.Op → ℚ) (nonneg : ∀ index, 0 ≤ costs index)
    (state : Exploration task env) : Prop where
  triggered : ∀ index, state.unsatisfiedPreconditions index = 0 ↔
    ∀ premise ∈ (task.op index).preconditions, (queueGraph costs nonneg).Reachable premise
  exists_supporter : ∀ index, (task.op index).preconditions ≠ [] →
    state.unsatisfiedPreconditions index = 0 → ∃ supporter, state.hMaxSupporter index = some supporter
  supporting : ∀ index supporter, state.hMaxSupporter index = some supporter →
    supporter ∈ (task.op index).preconditions ∧ state.unsatisfiedPreconditions index = 0

/-- The operator carries the cost of its supporter to its effects.  If the supporter has been drawn,
this is known only where it is free. -/
def Carried (costs : task.Op → ℚ) (state : Exploration task env) (index : task.Op) : Prop :=
  ∀ effect ∈ (task.op index).effects, ∀ weight, queueWeight costs index effect = some weight →
    ∀ bound, 0 ≤ bound → state.hMaxSupporterCost index ≤ bound →
      (task.options.useRandomPcf = true → bound = 0) → Within state.hMaxCost effect (bound + weight)

/-- A supporter that has become cheaper waits in the queue. -/
def Awaits (state : Exploration task env) (index : task.Op) : Prop :=
  ∀ supporter, state.hMaxSupporter index = some supporter →
    state.hMaxSupporterCost index ≤ state.costOf supporter ∨
      (state.costOf supporter, supporter) ∈ state.entries

/-- The invariant while the operators in the list still have to be told that the proposition has been
popped, and those that are not carried still have to be enqueued. -/
structure Lowering (costs : task.Op → ℚ) (nonneg : ∀ index, 0 ≤ costs index) (starts : Finset ℚ)
    (pops : ℕ) (exact : Prop) (popped : RelaxedProposition) (todo : List task.Op)
    (uncarried : task.Op → Prop) (state : Exploration task env) : Prop where
  bounded : Bounded costs nonneg starts pops exact state
  founded : Founded costs nonneg state
  carried : ∀ index supporter, ¬ uncarried index → state.hMaxSupporter index = some supporter →
    Carried costs state index
  awaits : ∀ index, Awaits state index ∨ index ∈ todo ∧ state.hMaxSupporter index = some popped
  overestimates : ∀ index supporter, state.hMaxSupporter index = some supporter →
    Within state.hMaxCost supporter (state.hMaxSupporterCost index)
  dearest : exact → ∀ index supporter, state.hMaxSupporter index = some supporter →
    ∀ premise ∈ (task.op index).preconditions,
      Within state.hMaxCost premise (state.hMaxSupporterCost index)

section Lowering

variable {nonneg : ∀ index, 0 ≤ costs index} {starts : Finset ℚ} {pops : ℕ} {exact : Prop}
  {popped : RelaxedProposition} {todo : List task.Op} {uncarried : task.Op → Prop}
  {state after : Exploration task env}

theorem Founded.of_same (founded : Founded costs nonneg state) (same : SameOperators state after) :
    Founded costs nonneg after := by
  constructor
  · rw [same.unsatisfied]
    exact founded.triggered
  · rw [same.unsatisfied, same.supporter]
    exact founded.exists_supporter
  · rw [same.unsatisfied, same.supporter]
    exact founded.supporting

theorem Carried.of_pushed {index : task.Op} (carried : Carried costs state index)
    (pushed : Pushed state after) : Carried costs after index := by
  intro effect member weight weighs bound boundNonneg le drawn
  rw [pushed.same.supporterCost] at le
  exact pushed.cheaper _ _ (carried effect member weight weighs bound boundNonneg le drawn)

theorem Awaits.of_pushed {index : task.Op} (awaits : Awaits state index)
    (pushed : Pushed state after) : Awaits after index := by
  intro supporter supports
  rw [pushed.same.supporter] at supports
  rw [pushed.same.supporterCost]
  cases pushed.lowered supporter with
  | inr pending => exact .inr pending
  | inl unchanged =>
    have sameCost : after.costOf supporter = state.costOf supporter := by simp [costOf, unchanged]
    rw [sameCost]
    cases awaits supporter supports with
    | inl settled => exact .inl settled
    | inr pending => exact .inr (pushed.entries _ pending)

namespace Lowering

theorem of_pushed (lowering : Lowering costs nonneg starts pops exact popped todo uncarried state)
    (bounded : Bounded costs nonneg starts pops exact after) (pushed : Pushed state after) :
    Lowering costs nonneg starts pops exact popped todo uncarried after := by
  refine ⟨bounded, lowering.founded.of_same pushed.same, ?_, ?_, ?_, ?_⟩
  · intro index supporter isCarried supports
    rw [pushed.same.supporter] at supports
    exact (lowering.carried index supporter isCarried supports).of_pushed pushed
  · intro index
    rw [pushed.same.supporter]
    cases lowering.awaits index with
    | inl awaits => exact .inl (awaits.of_pushed pushed)
    | inr isTodo => exact .inr isTodo
  · rw [pushed.same.supporter, pushed.same.supporterCost]
    exact fun index supporter supports =>
      pushed.cheaper _ _ (lowering.overestimates index supporter supports)
  · rw [pushed.same.supporter, pushed.same.supporterCost]
    exact fun isExact index supporter supports premise member =>
      pushed.cheaper _ _ (lowering.dearest isExact index supporter supports premise member)

theorem labelled (lowering : Lowering costs nonneg starts pops exact popped todo uncarried state)
    {index : task.Op} {supporter : RelaxedProposition}
    (supports : state.hMaxSupporter index = some supporter) :
    ∀ premise ∈ (task.op index).preconditions, (state.hMaxCost premise).isSome = true := by
  intro premise member
  have satisfied := (lowering.founded.supporting index supporter supports).2
  exact (lowering.bounded.reached premise).mpr ((lowering.founded.triggered index).mp satisfied premise member)

/-- Enqueuing the effects of an operator from its supporter. -/
theorem updateEffects {index : task.Op} {supporter : RelaxedProposition}
    (lowering : Lowering costs nonneg starts pops exact popped todo
      (fun other => uncarried other ∨ other = index) state)
    (supports : state.hMaxSupporter index = some supporter)
    (dearest : exact → ∀ premise ∈ (task.op index).preconditions,
      Within state.hMaxCost premise (state.costOf supporter)) :
    Lowering costs nonneg starts pops exact popped todo uncarried
        (state.updateEffects costs supporter index) ∧
      Pushed state (state.updateEffects costs supporter index) := by
  obtain ⟨bounded, pushed, effects⟩ := lowering.bounded.updateEffects
    (lowering.founded.supporting index supporter supports).1 (lowering.labelled supports) dearest
  have after := lowering.of_pushed bounded pushed
  refine ⟨⟨after.bounded, after.founded, ?_, after.awaits, after.overestimates, after.dearest⟩, pushed⟩
  intro other otherSupporter isCarried otherSupports
  by_cases own : other = index
  · subst own
    intro effect member weight weighs bound _ le _
    have supporterLe := (within_iff.mp (lowering.overestimates other supporter supports)).2
    rw [pushed.same.supporterCost] at le
    exact (effects effect member weight weighs).mono (by linarith)
  · exact after.carried other otherSupporter (not_or.mpr ⟨isCarried, own⟩) otherSupports

end Lowering

/-! ## One pop -/

theorem foldl_dearest (state : Exploration task env) (supporter : RelaxedProposition) (premises : List RelaxedProposition) :
    let dearest := premises.foldl
      (fun dearest prop => if state.costOf dearest < state.costOf prop then prop else dearest) supporter
    (dearest = supporter ∨ dearest ∈ premises) ∧ state.costOf supporter ≤ state.costOf dearest ∧
      ∀ premise ∈ premises, state.costOf premise ≤ state.costOf dearest := by
  induction premises generalizing supporter with
  | nil => simp
  | cons premise premises inductionHypothesis =>
    simp only [List.foldl_cons]
    rw [List.mem_cons, List.forall_mem_cons]
    by_cases dearer : state.costOf supporter < state.costOf premise
    · rw [if_pos dearer]
      obtain ⟨member, le, others⟩ := inductionHypothesis premise
      exact ⟨.inr member, dearer.le.trans le, le, others⟩
    · rw [if_neg dearer]
      obtain ⟨member, le, others⟩ := inductionHypothesis supporter
      refine ⟨?_, le, (not_lt.mp dearer).trans le, others⟩
      tauto

/-- The supporter of one operator is set anew. -/
structure Renewed (state after : Exploration task env) (index : task.Op) : Prop where
  hMaxCost : after.hMaxCost = state.hMaxCost
  unsatisfied : after.unsatisfiedPreconditions = state.unsatisfiedPreconditions
  priorityQueue : after.priorityQueue = state.priorityQueue
  supporter : ∃ supporter ∈ (task.op index).preconditions,
    after.hMaxSupporter = Function.update state.hMaxSupporter index (some supporter) ∧
    after.hMaxSupporterCost =
      Function.update state.hMaxSupporterCost index (state.costOf supporter) ∧
    (task.options.useRandomPcf = false →
      ∀ premise ∈ (task.op index).preconditions, state.costOf premise ≤ state.costOf supporter)

theorem renewSupporter_renewed {index : task.Op} {supporter : RelaxedProposition}
    (isPremise : supporter ∈ (task.op index).preconditions) :
    Renewed state (state.renewSupporter supporter index) index := by
  unfold renewSupporter
  cases random : task.options.useRandomPcf with
  | true =>
    obtain ⟨drawn, member, -, sameSupporter, sameCost⟩ :=
      selectRandomSupporter_spec state (List.ne_nil_of_mem isPremise)
    exact ⟨rfl, rfl, rfl, drawn, member, sameSupporter, sameCost, by simp [random]⟩
  | false =>
    obtain ⟨member, -, others⟩ := foldl_dearest state supporter (task.op index).preconditions
    refine ⟨rfl, rfl, rfl, _, ?_, rfl, rfl, fun _ => others⟩
    cases member with
    | inl own => rw [own]; exact isPremise
    | inr isOther => exact isOther

namespace Lowering

/-- Renewing a supporter settles its operator, which then has to carry the new cost. -/
theorem renewed {index : task.Op}
    (lowering : Lowering costs nonneg starts pops exact popped (index :: todo) uncarried state)
    (notRandom : exact → task.options.useRandomPcf = false)
    (satisfied : state.unsatisfiedPreconditions index = 0) (renewed : Renewed state after index) :
    Lowering costs nonneg starts pops exact popped todo
      (fun other => uncarried other ∨ other = index) after := by
  obtain ⟨supporter, isPremise, sameSupporter, sameCost, dearest⟩ := renewed.supporter
  have sameCosts : after.costOf = state.costOf := by
    funext prop
    simp [costOf, renewed.hMaxCost]
  have sameEntries : after.entries = state.entries := by simp [entries, renewed.priorityQueue]
  have labelled : ∀ premise ∈ (task.op index).preconditions,
      (state.hMaxCost premise).isSome = true := fun premise member =>
    (lowering.bounded.reached premise).mpr
      ((lowering.founded.triggered index).mp satisfied premise member)
  refine ⟨⟨?_, ?_, ?_, ?_, ?_⟩, ⟨?_, ?_, ?_⟩, ?_, ?_, ?_, ?_⟩
  · rw [renewed.hMaxCost]; exact lowering.bounded.reached
  · rw [renewed.hMaxCost]; exact lowering.bounded.sources
  · rw [renewed.hMaxCost, sameCosts]; exact lowering.bounded.chained
  · rw [renewed.hMaxCost, sameEntries]; exact lowering.bounded.room
  · rw [renewed.hMaxCost]; exact lowering.bounded.sound
  · rw [renewed.unsatisfied]; exact lowering.founded.triggered
  · rw [renewed.unsatisfied, sameSupporter]
    intro other nonempty otherSatisfied
    by_cases own : other = index
    · subst own
      exact ⟨supporter, Function.update_self _ _ _⟩
    · rw [Function.update_of_ne own]
      exact lowering.founded.exists_supporter other nonempty otherSatisfied
  · rw [renewed.unsatisfied, sameSupporter]
    intro other otherSupporter supports
    by_cases own : other = index
    · subst own
      rw [Function.update_self] at supports
      cases supports
      exact ⟨isPremise, satisfied⟩
    · rw [Function.update_of_ne own] at supports
      exact lowering.founded.supporting other otherSupporter supports
  · intro other otherSupporter isCarried supports
    rw [not_or] at isCarried
    rw [sameSupporter, Function.update_of_ne isCarried.2] at supports
    unfold Carried
    rw [renewed.hMaxCost, sameCost, Function.update_of_ne isCarried.2]
    exact lowering.carried other otherSupporter isCarried.1 supports
  · intro other
    unfold Awaits
    rw [sameSupporter, sameCost, sameCosts, sameEntries]
    by_cases own : other = index
    · subst own
      left
      intro otherSupporter supports
      rw [Function.update_self] at supports ⊢
      cases supports
      exact .inl (le_refl _)
    · rw [Function.update_of_ne own, Function.update_of_ne own]
      cases lowering.awaits other with
      | inl awaits => exact .inl awaits
      | inr isTodo =>
        rw [List.mem_cons] at isTodo
        exact .inr ⟨isTodo.1.resolve_left own, isTodo.2⟩
  · rw [sameSupporter, sameCost, renewed.hMaxCost]
    intro other otherSupporter supports
    by_cases own : other = index
    · subst own
      rw [Function.update_self] at supports ⊢
      cases supports
      exact within_iff.mpr ⟨labelled _ isPremise, le_refl _⟩
    · rw [Function.update_of_ne own] at supports ⊢
      exact lowering.overestimates other otherSupporter supports
  · rw [sameSupporter, sameCost, renewed.hMaxCost]
    intro isExact other otherSupporter supports
    by_cases own : other = index
    · subst own
      rw [Function.update_self]
      exact fun premise member => within_iff.mpr
        ⟨labelled premise member, dearest (notRandom isExact) premise member⟩
    · rw [Function.update_of_ne own] at supports ⊢
      exact lowering.dearest isExact other otherSupporter supports

/-- One operator is told that the proposition has been popped. -/
theorem lowerSupporter {index : task.Op} {popCost : ℚ}
    (lowering : Lowering costs nonneg starts pops exact popped (index :: todo) (fun _ => False) state)
    (notRandom : exact → task.options.useRandomPcf = false)
    (isCost : state.costOf popped = popCost ∨ (state.costOf popped, popped) ∈ state.entries) :
    Lowering costs nonneg starts pops exact popped todo (fun _ => False)
        (Exploration.lowerSupporter costs popped popCost state index) ∧
      ((Exploration.lowerSupporter costs popped popCost state index).costOf popped = popCost ∨
        ((Exploration.lowerSupporter costs popped popCost state index).costOf popped, popped) ∈
          (Exploration.lowerSupporter costs popped popCost state index).entries) := by
  unfold Exploration.lowerSupporter
  by_cases lowers : state.hMaxSupporter index = some popped ∧ popCost < state.hMaxSupporterCost index
  · rw [if_pos lowers]
    simp only
    have ⟨isPremise, satisfied⟩ := lowering.founded.supporting index popped lowers.1
    have renews : Renewed state (state.renewSupporter popped index) index :=
      renewSupporter_renewed isPremise
    have after := lowering.renewed notRandom satisfied renews
    obtain ⟨supporter, isSupporter, sameSupporter, sameCost, dearest⟩ := renews.supporter
    have renewedCost : (state.renewSupporter popped index).costOf popped = state.costOf popped := by
      simp [costOf, renews.hMaxCost]
    have renewedIsCost : (state.renewSupporter popped index).costOf popped = popCost ∨
        ((state.renewSupporter popped index).costOf popped, popped) ∈
          (state.renewSupporter popped index).entries := by
      rw [renewedCost]
      simpa only [entries, renews.priorityQueue] using isCost
    by_cases changed : (state.renewSupporter popped index).hMaxSupporterCost index ≠
        state.hMaxSupporterCost index
    · rw [if_pos changed]
      have supports : (state.renewSupporter popped index).hMaxSupporter index = some supporter := by
        rw [sameSupporter, Function.update_self]
      simp only [supports]
      obtain ⟨carries, pushed⟩ := after.updateEffects supports fun isExact => by
        have within := after.dearest isExact index supporter supports
        rw [sameCost, Function.update_self] at within
        simpa only [costOf, renews.hMaxCost] using within
      refine ⟨carries, ?_⟩
      cases pushed.lowered popped with
      | inr pending => exact .inr pending
      | inl unchanged =>
        have keptCost : ((state.renewSupporter popped index).updateEffects costs supporter
            index).costOf popped = (state.renewSupporter popped index).costOf popped := by
          simp [costOf, unchanged]
        rw [keptCost]
        exact renewedIsCost.imp_right (pushed.entries _)
    · rw [if_neg changed]
      rw [not_not] at changed
      refine ⟨⟨after.bounded, after.founded, ?_, after.awaits, after.overestimates, after.dearest⟩,
        renewedIsCost⟩
      intro other otherSupporter _ supports
      by_cases own : other = index
      · subst own
        -- the new supporter is as dear as the old one was
        unfold Carried
        rw [renews.hMaxCost, changed]
        exact lowering.carried other popped id lowers.1
      · exact after.carried other otherSupporter (by simpa using own) supports
  · rw [if_neg lowers]
    refine ⟨⟨lowering.bounded, lowering.founded, lowering.carried, fun other => ?_,
      lowering.overestimates, lowering.dearest⟩, isCost⟩
    cases lowering.awaits other with
    | inl awaits => exact .inl awaits
    | inr isTodo =>
      cases List.mem_cons.mp isTodo.1 with
      | inr inTodo => exact .inr ⟨inTodo, isTodo.2⟩
      | inl own =>
        subst own
        left
        intro supporter supports
        rw [isTodo.2] at supports
        cases supports
        have le : state.hMaxSupporterCost other ≤ popCost := not_lt.mp fun less => lowers ⟨isTodo.2, less⟩
        refine isCost.imp_left fun same => ?_
        rw [same]
        exact le

theorem lowerSupporters {indices : List task.Op} {popCost : ℚ}
    (lowering : Lowering costs nonneg starts pops exact popped indices (fun _ => False) state)
    (notRandom : exact → task.options.useRandomPcf = false)
    (isCost : state.costOf popped = popCost ∨ (state.costOf popped, popped) ∈ state.entries) :
    Lowering costs nonneg starts pops exact popped [] (fun _ => False)
      (indices.foldl (Exploration.lowerSupporter costs popped popCost) state) := by
  induction indices generalizing state with
  | nil => exact lowering
  | cons index indices inductionHypothesis =>
    obtain ⟨after, afterCost⟩ := lowering.lowerSupporter notRandom isCost
    exact inductionHypothesis after afterCost

/-- One pop: nothing waits for a stale entry, and any other one is told to the operators that wait. -/
theorem processLowered
    (lowering : Lowering costs nonneg starts (pops + 1) exact popped [] (fun _ => False) state)
    (notRandom : exact → task.options.useRandomPcf = false)
    {entry : ℚ × RelaxedProposition} {rest : env.queue.Heap}
    (pop : env.queue.pop state.priorityQueue = some (entry, rest)) :
    Lowering costs nonneg starts pops exact entry.2 [] (fun _ => False)
      ({ state with priorityQueue := rest }.processLowered costs entry) := by
  have split : state.entries = entry ::ₘ env.queue.entries rest :=
    env.queue.entries_of_pop_some _ _ _ pop
  have room := lowering.bounded.room
  rw [split, Multiset.card_cons] at room
  have bounded : Bounded costs nonneg starts pops exact { state with priorityQueue := rest } :=
    ⟨lowering.bounded.reached, lowering.bounded.sources, lowering.bounded.chained,
      by simp only [entries]; omega, lowering.bounded.sound⟩
  have founded : Founded costs nonneg { state with priorityQueue := rest } :=
    ⟨lowering.founded.triggered, lowering.founded.exists_supporter, lowering.founded.supporting⟩
  have awaits (index : task.Op) (supporter : RelaxedProposition)
      (supports : state.hMaxSupporter index = some supporter) :
      state.hMaxSupporterCost index ≤ state.costOf supporter ∨
        (state.costOf supporter, supporter) = entry ∨
        (state.costOf supporter, supporter) ∈ env.queue.entries rest := by
    have before := (lowering.awaits index).resolve_right (by simp) supporter supports
    rwa [split, Multiset.mem_cons] at before
  unfold Exploration.processLowered
  by_cases stale : state.costOf entry.2 < entry.1
  · rw [if_pos (by simpa only [costOf] using stale)]
    refine ⟨bounded, founded, lowering.carried, fun index => .inl fun supporter supports => ?_,
      lowering.overestimates, lowering.dearest⟩
    refine (awaits index supporter supports).imp_right fun pending => pending.resolve_left fun isEntry => ?_
    rw [← isEntry] at stale
    exact lt_irrefl _ stale
  · rw [if_neg (by simpa only [costOf] using stale)]
    have told : Lowering costs nonneg starts pops exact entry.2 (task.preconditionOf entry.2)
        (fun _ => False) { state with priorityQueue := rest } := by
      refine ⟨bounded, founded, lowering.carried, fun index => ?_, lowering.overestimates,
        lowering.dearest⟩
      cases supports : state.hMaxSupporter index with
      | none => exact .inl fun supporter isSupporter => by simp [supports] at isSupporter
      | some supporter =>
        by_cases own : supporter = entry.2
        · subst own
          refine .inr ⟨RelaxedTask.mem_preconditionOf.mpr ?_, rfl⟩
          exact (lowering.founded.supporting index _ supports).1
        · left
          intro other isOther
          have isSame : other = supporter := by simpa [supports] using isOther.symm
          subst isSame
          refine (awaits index other supports).imp_right fun pending => pending.resolve_left ?_
          rintro rfl
          exact own rfl
    exact told.lowerSupporters notRandom (.inl rfl)

/-- With enough fuel the queue is empty in the end. -/
theorem exploreLowered (fuel : ℕ)
    (lowering : Lowering costs nonneg starts fuel exact popped [] (fun _ => False) state)
    (notRandom : exact → task.options.useRandomPcf = false) :
    ∃ last pops, Lowering costs nonneg starts pops exact last [] (fun _ => False)
        (Exploration.exploreLowered costs fuel state) ∧
      (Exploration.exploreLowered costs fuel state).entries = 0 := by
  induction fuel generalizing popped state with
  | zero =>
    refine ⟨popped, 0, lowering, Multiset.card_eq_zero.mp ?_⟩
    have room := lowering.bounded.room
    simp only [Exploration.exploreLowered]
    omega
  | succ fuel inductionHypothesis =>
    unfold Exploration.exploreLowered
    cases pop : env.queue.pop state.priorityQueue with
    | none => exact ⟨popped, fuel + 1, lowering, env.queue.entries_of_pop_none _ pop⟩
    | some top => exact inductionHypothesis (lowering.processLowered notRandom pop)

end Lowering

end Lowering

/-! ## Between two iterations -/

/-- What an exploration leaves behind.  If it is exact, the costs can be derived, and supporters are
dearest preconditions. -/
structure Consistent (costs : task.Op → ℚ) (nonneg : ∀ index, 0 ≤ costs index) (exact : Prop)
    (state : Exploration task env) : Prop where
  reached : ∀ prop, (state.hMaxCost prop).isSome = true ↔ (queueGraph costs nonneg).Reachable prop
  sources : ∀ prop ∈ task.initialPropositions, Within state.hMaxCost prop 0
  founded : Founded costs nonneg state
  carried : ∀ index supporter, state.hMaxSupporter index = some supporter → Carried costs state index
  supporterCost : ∀ index supporter, state.hMaxSupporter index = some supporter →
    state.hMaxCost supporter = some (state.hMaxSupporterCost index)
  sound : exact → (queueGraph costs nonneg).Sound state.hMaxCost
  dearest : exact → ∀ index supporter, state.hMaxSupporter index = some supporter →
    ∀ premise ∈ (task.op index).preconditions,
      Within state.hMaxCost premise (state.hMaxSupporterCost index)
  queue_empty : state.entries = 0

section Between

variable {nonneg : ∀ index, 0 ≤ costs index} {exact : Prop} {state after : Exploration task env}

theorem Settled.consistent (settled : Settled costs nonneg state)
    (notRandom : exact → task.options.useRandomPcf = false) : Consistent costs nonneg exact state := by
  have supported (index : task.Op) (supporter : RelaxedProposition)
      (supports : state.hMaxSupporter index = some supporter) :
      state.hMaxCost supporter = some (state.hMaxSupporterCost index) ∧
        ((task.options.useRandomPcf = true → state.hMaxSupporterCost index ≤ 0) →
          ∀ premise ∈ (task.op index).preconditions,
            Within state.hMaxCost premise (state.hMaxSupporterCost index)) := by
    obtain ⟨isPremise, satisfied⟩ := settled.supporting index supporter supports
    obtain ⟨other, -, isSupporter, labelled, dearest⟩ :=
      settled.supported index (List.ne_nil_of_mem isPremise) satisfied
    rw [supports] at isSupporter
    cases isSupporter
    exact ⟨labelled, dearest⟩
  refine ⟨settled.cheapest.isSome_iff, settled.cheapest.closed.sources, ⟨?_, ?_, settled.supporting⟩, ?_,
    fun index supporter supports => (supported index supporter supports).1,
    fun _ => settled.cheapest.sound, ?_, settled.queue_empty⟩
  · intro index
    rw [settled.triggered index]
    simp only [settled.cheapest.isSome_iff]
  · intro index nonempty satisfied
    obtain ⟨supporter, -, isSupporter, -⟩ := settled.supported index nonempty satisfied
    exact ⟨supporter, isSupporter⟩
  · intro index supporter supports effect member weight weighs bound boundNonneg le drawn
    have isPremise := (settled.supporting index supporter supports).1
    refine settled.cheapest.closed.rules index effect weight bound ?_ boundNonneg fun premise isPremise => ?_
    · simp only [queueGraph]
      rw [if_pos ⟨member, List.ne_nil_of_mem isPremise⟩]
      exact weighs
    · refine ((supported index supporter supports).2 (fun random => ?_) premise isPremise).mono le
      exact drawn random ▸ le
  · intro isExact index supporter supports
    exact (supported index supporter supports).2 (by simp [notRandom isExact])

/-- In a consistent state no operator improves the costs. -/
theorem Consistent.closed (consistent : Consistent costs nonneg exact state)
    (notRandom : task.options.useRandomPcf = false) :
    (queueGraph costs nonneg).Closed state.hMaxCost := by
  refine ⟨consistent.sources, fun index effect weight bound weighs boundNonneg premises => ?_⟩
  simp only [queueGraph] at weighs
  split at weighs
  · rename_i applies
    have satisfied : state.unsatisfiedPreconditions index = 0 :=
      (consistent.founded.triggered index).mpr fun premise member =>
        (consistent.reached premise).mp (within_iff.mp (premises premise member)).1
    obtain ⟨supporter, supports⟩ := consistent.founded.exists_supporter index applies.2 satisfied
    obtain ⟨cost, labelled, le⟩ :=
      premises supporter (consistent.founded.supporting index supporter supports).1
    rw [consistent.supporterCost index supporter supports] at labelled
    cases labelled
    exact consistent.carried index supporter supports effect applies.1 weight weighs bound boundNonneg le
      (by simp [notRandom])
  · cases weighs

end Between

/-! ## Reduced costs -/

section Reduced

variable {nonneg : ∀ index, 0 ≤ costs index} {reduced : task.Op → ℚ}
  {reducedNonneg : ∀ index, 0 ≤ reduced index}

theorem queueWeight_reduced {index : task.Op} {effect : RelaxedProposition} {weight : ℚ}
    (le : reduced index ≤ costs index) (weighs : queueWeight costs index effect = some weight) :
    ∃ less, queueWeight reduced index effect = some less ∧ less ≤ weight := by
  cases effect with
  | condition id =>
    simp only [queueWeight] at weighs ⊢
    split at weighs
    · rename_i lacks
      rw [if_pos lacks]
      split at weighs
      · rename_i isLarge
        rw [if_pos isLarge]
        cases weighs
        exact ⟨_, rfl, mul_le_mul_of_nonneg_left le (task.options.precision_nonneg.trans isLarge)⟩
      · cases weighs
    · cases weighs
  | artificialPrecondition | artificialGoal | fact =>
    cases weighs
    exact ⟨_, rfl, le⟩

variable (reducedNonneg) in
theorem queueGraph_weight_reduced {index : task.Op} {effect : RelaxedProposition} {weight : ℚ}
    (le : reduced index ≤ costs index)
    (weighs : (queueGraph costs nonneg).weight index effect = some weight) :
    ∃ less, (queueGraph reduced reducedNonneg).weight index effect = some less ∧ less ≤ weight := by
  simp only [queueGraph] at weighs ⊢
  split at weighs
  · rename_i applies
    rw [if_pos applies]
    exact queueWeight_reduced le weighs
  · cases weighs

variable (costs reduced) in
theorem queueWeight_isSome (index : task.Op) (effect : RelaxedProposition) :
    (queueWeight reduced index effect).isSome = (queueWeight costs index effect).isSome := by
  cases effect with
  | condition id =>
    simp only [queueWeight]
    split
    · split <;> rfl
    · rfl
  | artificialPrecondition | artificialGoal | fact => rfl

/-- What can be reached does not depend on the costs. -/
theorem reachable_of_costs {prop : RelaxedProposition}
    (reachable : (queueGraph costs nonneg).Reachable prop) :
    (queueGraph reduced reducedNonneg).Reachable prop := by
  induction reachable with
  | source isSource => exact .source isSource
  | @rule index effect weight weighs _ premises =>
    have isSome : ((queueGraph reduced reducedNonneg).weight index effect).isSome = true := by
      simp only [queueGraph] at weighs ⊢
      split at weighs
      · rename_i applies
        rw [if_pos applies, queueWeight_isSome costs, weighs]
        rfl
      · cases weighs
    obtain ⟨less, isLess⟩ := Option.isSome_iff_exists.mp isSome
    exact .rule isLess premises

variable (nonneg reducedNonneg) in
theorem reachable_reduced_iff (prop : RelaxedProposition) :
    (queueGraph costs nonneg).Reachable prop ↔ (queueGraph reduced reducedNonneg).Reachable prop :=
  ⟨reachable_of_costs, reachable_of_costs⟩

/-- What can be derived at a cost can still be derived at it, since costs may be overestimated. -/
theorem derives_reduced (le : ∀ index, reduced index ≤ costs index) {prop : RelaxedProposition}
    {cost : ℚ} (derives : (queueGraph costs nonneg).Derives prop cost) :
    (queueGraph reduced reducedNonneg).Derives prop cost := by
  induction derives with
  | source isSource => exact .source isSource
  | @rule index effect weight bound premiseCosts weighs boundNonneg _ below premises =>
    obtain ⟨less, isLess, lessLe⟩ :=
      queueGraph_weight_reduced reducedNonneg (le index) weighs
    have sum : bound + weight = bound + (weight - less) + less := by ring
    rw [sum]
    refine .rule premiseCosts isLess (by linarith) premises fun premise member => ?_
    linarith [below premise member]

end Reduced

/-! ## Enqueuing the cut -/

/-- Whenever an operator is enqueued, its supporter is still one of its dearest preconditions. -/
def DearestWhenRequeued (costs : task.Op → ℚ) : List task.Op → Exploration task env → Prop
  | [], _ => True
  | index :: indices, state =>
    (∀ supporter ∈ state.hMaxSupporter index, ∀ premise ∈ (task.op index).preconditions,
        state.costOf premise ≤ state.costOf supporter) ∧
      DearestWhenRequeued costs indices (state.requeueEffects costs index)

instance decidableDearestWhenRequeued (costs : task.Op → ℚ) :
    (indices : List task.Op) → (state : Exploration task env) →
      Decidable (DearestWhenRequeued costs indices state)
  | [], _ => .isTrue trivial
  | index :: indices, state =>
    have := decidableDearestWhenRequeued costs indices (state.requeueEffects costs index)
    inferInstanceAs (Decidable (_ ∧ _))

section Requeue

variable {nonneg : ∀ index, 0 ≤ costs index} {starts : Finset ℚ} {pops : ℕ} {exact : Prop}
  {popped : RelaxedProposition} {state after : Exploration task env}

namespace Lowering

theorem requeueEffects {index : task.Op} {uncarried : task.Op → Prop}
    (lowering : Lowering costs nonneg starts pops exact popped []
      (fun other => uncarried other ∨ other = index) state)
    (dearest : exact → ∀ supporter ∈ state.hMaxSupporter index,
      ∀ premise ∈ (task.op index).preconditions, state.costOf premise ≤ state.costOf supporter) :
    Lowering costs nonneg starts pops exact popped [] uncarried
      (state.requeueEffects costs index) := by
  unfold Exploration.requeueEffects
  cases supports : state.hMaxSupporter index with
  | some supporter =>
    rw [if_pos (lowering.founded.supporting index supporter supports).2]
    refine (lowering.updateEffects supports fun isExact premise member => ?_).1
    exact within_iff.mpr ⟨lowering.labelled supports premise member,
      dearest isExact supporter (by simp [supports]) premise member⟩
  | none =>
    rw [ite_self]
    refine ⟨lowering.bounded, lowering.founded, ?_, lowering.awaits, lowering.overestimates,
      lowering.dearest⟩
    intro other supporter isCarried isSupporter
    refine lowering.carried other supporter (not_or.mpr ⟨isCarried, ?_⟩) isSupporter
    rintro rfl
    rw [supports] at isSupporter
    cases isSupporter

theorem requeue {indices : List task.Op}
    (lowering : Lowering costs nonneg starts pops exact popped [] (fun other => other ∈ indices) state)
    (dearest : exact → DearestWhenRequeued costs indices state) :
    Lowering costs nonneg starts pops exact popped [] (fun _ => False)
      (indices.foldl (Exploration.requeueEffects costs) state) := by
  induction indices generalizing state with
  | nil => simpa using lowering
  | cons index indices inductionHypothesis =>
    have split : Lowering costs nonneg starts pops exact popped []
        (fun other => other ∈ indices ∨ other = index) state := by
      simpa only [List.mem_cons, or_comm] using lowering
    exact inductionHypothesis (split.requeueEffects fun isExact => (dearest isExact).1)
      fun isExact => (dearest isExact).2

/-- The chains can be counted from the present costs. -/
theorem rebase {uncarried : task.Op → Prop}
    (lowering : Lowering costs nonneg starts pops exact popped [] uncarried state) :
    Lowering costs nonneg state.startCosts state.lowerBound exact popped [] uncarried state := by
  refine ⟨⟨lowering.bounded.reached, lowering.bounded.sources, fun prop member => ?_,
    pops_le_lowerBound costs state, lowering.bounded.sound⟩, lowering.founded, lowering.carried,
    lowering.awaits, lowering.overestimates, lowering.dearest⟩
  exact Chained.of_start (List.mem_toFinset.mpr (List.mem_map.mpr ⟨prop, member, rfl⟩))

theorem consistent
    (lowering : Lowering costs nonneg starts pops exact popped [] (fun _ => False) state)
    (queueEmpty : state.entries = 0) : Consistent costs nonneg exact state := by
  refine ⟨lowering.bounded.reached, lowering.bounded.sources, lowering.founded,
    fun index supporter => lowering.carried index supporter id, ?_, lowering.bounded.sound,
    lowering.dearest, queueEmpty⟩
  intro index supporter supports
  obtain ⟨cost, labelled, le⟩ := lowering.overestimates index supporter supports
  have isCost : state.costOf supporter = cost := by simp [costOf, labelled]
  have awaits := (lowering.awaits index).resolve_right (by simp) supporter supports
  rw [queueEmpty, isCost] at awaits
  rw [labelled, le_antisymm le (awaits.resolve_right (Multiset.notMem_zero _))]

end Lowering

/-- An iteration keeps the exploration consistent with the costs. -/
theorem Consistent.firstExplorationIncremental {reduced : task.Op → ℚ}
    (reducedNonneg : ∀ index, 0 ≤ reduced index) {cut : List task.Op}
    (consistent : Consistent costs nonneg exact state)
    (le : ∀ index, reduced index ≤ costs index)
    (unchanged : ∀ index, index ∉ requeued cut → reduced index = costs index)
    (notRandom : exact → task.options.useRandomPcf = false)
    (isAfter : state.firstExplorationIncremental reduced cut = some after) :
    Consistent reduced reducedNonneg (exact ∧ DearestWhenRequeued reduced (requeued cut) state)
      after := by
  unfold Exploration.firstExplorationIncremental at isAfter
  split at isAfter
  · cases isAfter
  · cases isAfter
    have start : Lowering reduced reducedNonneg state.startCosts state.lowerBound
        (exact ∧ DearestWhenRequeued reduced (requeued cut) state) .artificialGoal []
        (fun other => other ∈ requeued cut) state := by
      refine ⟨⟨fun prop => ?_, consistent.sources, fun prop member => ?_, pops_le_lowerBound _ _,
        fun isExact prop cost labelled => ?_⟩, ⟨fun index => ?_, consistent.founded.exists_supporter,
        consistent.founded.supporting⟩, ?_, fun index => .inl fun supporter supports => .inl ?_, ?_,
        fun isExact => consistent.dearest isExact.1⟩
      · rw [consistent.reached prop, reachable_reduced_iff _ reducedNonneg]
      · exact Chained.of_start (List.mem_toFinset.mpr (List.mem_map.mpr ⟨prop, member, rfl⟩))
      · exact derives_reduced le (consistent.sound isExact.1 prop cost labelled)
      · rw [consistent.founded.triggered index]
        simp only [reachable_reduced_iff _ reducedNonneg]
      · intro index supporter isOther supports effect member weight weighs
        refine consistent.carried index supporter supports effect member weight ?_
        rw [← weighs]
        unfold queueWeight
        rw [unchanged index isOther]
      · simp [costOf, consistent.supporterCost index supporter supports]
      · intro index supporter supports
        exact ⟨_, consistent.supporterCost index supporter supports, le_refl _⟩
    have requeues := (start.requeue fun isExact => isExact.2).rebase
    obtain ⟨last, pops, lowered, queueEmpty⟩ :=
      requeues.exploreLowered _ fun isExact => notRandom isExact.1
    exact lowered.consistent queueEmpty

end Requeue

end Exploration

end CutPlan.Landmarks
