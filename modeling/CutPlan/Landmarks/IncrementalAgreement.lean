import CutPlan.Landmarks.CostPartition
import CutPlan.Landmarks.Incremental

/-! # The incremental exploration against a new one

The incremental exploration ends with the costs that the first exploration computes, unless an operator
of the cut is enqueued from a supporter that an operator enqueued before has made cheaper than another
precondition.
-/

namespace CutPlan.Landmarks

open CutPlan.Lib Exploration

namespace Exploration

variable {task : RelaxedTask} {env : Environment}

/-- The same costs, and the same supporter costs of the operators that have been triggered. -/
structure Agrees (state recomputed : Exploration task env) : Prop where
  hMaxCost : state.hMaxCost = recomputed.hMaxCost
  triggered : ∀ index, state.unsatisfiedPreconditions index = 0 ↔
    recomputed.unsatisfiedPreconditions index = 0
  supporterCost : ∀ index, (task.op index).preconditions ≠ [] →
    state.unsatisfiedPreconditions index = 0 →
    state.hMaxSupporterCost index = recomputed.hMaxSupporterCost index

theorem Consistent.supporterCost_le {costs : task.Op → ℚ} {nonneg : ∀ index, 0 ≤ costs index}
    {state other : Exploration task env} (consistent : Consistent costs nonneg True state)
    (otherConsistent : Consistent costs nonneg True other) (sameCosts : state.hMaxCost = other.hMaxCost)
    {index : task.Op} {supporter otherSupporter : RelaxedProposition}
    (supports : state.hMaxSupporter index = some supporter)
    (otherSupports : other.hMaxSupporter index = some otherSupporter) :
    state.hMaxSupporterCost index ≤ other.hMaxSupporterCost index := by
  have isPremise := (consistent.founded.supporting index supporter supports).1
  obtain ⟨cost, labelled, le⟩ :=
    otherConsistent.dearest trivial index otherSupporter otherSupports supporter isPremise
  rw [← sameCosts, consistent.supporterCost index supporter supports] at labelled
  cases labelled
  exact le

/-- Two exact explorations with the same operator costs agree. -/
theorem Consistent.agrees {costs : task.Op → ℚ} {nonneg : ∀ index, 0 ≤ costs index}
    {state other : Exploration task env} (notRandom : task.options.useRandomPcf = false)
    (consistent : Consistent costs nonneg True state)
    (otherConsistent : Consistent costs nonneg True other) : Agrees state other := by
  have cheapest := RuleGraph.cheapest_of_closed (consistent.sound trivial) (consistent.closed notRandom)
  have otherCheapest :=
    RuleGraph.cheapest_of_closed (otherConsistent.sound trivial) (otherConsistent.closed notRandom)
  have sameCosts : state.hMaxCost = other.hMaxCost := cheapest.unique otherCheapest
  have triggered (index : task.Op) : state.unsatisfiedPreconditions index = 0 ↔
      other.unsatisfiedPreconditions index = 0 := by
    rw [consistent.founded.triggered, otherConsistent.founded.triggered]
  refine ⟨sameCosts, triggered, fun index nonempty satisfied => ?_⟩
  obtain ⟨supporter, supports⟩ := consistent.founded.exists_supporter index nonempty satisfied
  obtain ⟨otherSupporter, otherSupports⟩ :=
    otherConsistent.founded.exists_supporter index nonempty ((triggered index).mp satisfied)
  exact le_antisymm
    (consistent.supporterCost_le otherConsistent sameCosts supports otherSupports)
    (otherConsistent.supporterCost_le consistent sameCosts.symm otherSupports supports)

end Exploration

namespace LandmarkLoop

variable {task : RelaxedTask} {env : Environment} {loop after : LandmarkLoop task env}

/-- The condition on an iteration: whenever a copy of an operator in the cut is enqueued, its supporter
is still one of its dearest preconditions. -/
def SupportersStayDearest (loop : LandmarkLoop task env) : Prop :=
  ∀ cost ∈ cutCost loop.costs loop.cut,
    DearestWhenRequeued (loop.reduced cost) (requeued (loop.cut.map Prod.fst)) loop.exploration

/-- One iteration keeps the exploration consistent with the costs. -/
theorem next_consistent {nonneg : ∀ index, 0 ≤ loop.costs index} {exact : Prop}
    (consistent : Consistent loop.costs nonneg exact loop.exploration)
    (notRandom : exact → task.options.useRandomPcf = false)
    (dearest : exact → loop.SupportersStayDearest) (isNext : loop.next = some after) :
    ∃ afterNonneg : ∀ index, 0 ≤ after.costs index,
      Consistent after.costs afterNonneg exact after.exploration := by
  obtain ⟨cost, -, isCost, explores, isReduced, -⟩ := next_eq_some isNext
  have bounds := reduced_bounds nonneg isCost
  rw [isReduced]
  refine ⟨fun index => (bounds index).1, ?_⟩
  have consistentAfter := consistent.firstExplorationIncremental (fun index => (bounds index).1)
    (fun index => (bounds index).2) (fun index => reduced_of_not_mem_requeued cost) notRandom explores
  -- exactness survives where the supporters stay dearest
  have exactAfter (isExact : exact) :
      exact ∧ DearestWhenRequeued (loop.reduced cost) (requeued (loop.cut.map Prod.fst))
        loop.exploration :=
    ⟨isExact, dearest isExact cost isCost⟩
  exact
    { consistentAfter with
      sound := fun isExact => consistentAfter.sound (exactAfter isExact)
      dearest := fun isExact => consistentAfter.dearest (exactAfter isExact) }

/-- Throughout a run the exploration is consistent with the costs. -/
theorem consistent_of_reached {condition : LandmarkLoop task env → Prop} {draws iterations : ℕ}
    {exact : Prop} (notRandom : exact → task.options.useRandomPcf = false)
    (dearest : exact → ∀ loop, condition loop → loop.SupportersStayDearest)
    (reached : ReachedIf condition draws iterations loop) :
    ∃ nonneg : ∀ index, 0 ≤ loop.costs index, Consistent loop.costs nonneg exact loop.exploration := by
  induction reached with
  | start =>
    exact ⟨RelaxedTask.baseCost_nonneg, (firstExploration_settled _ _ draws).consistent notRandom⟩
  | next _ meets _ isNext inductionHypothesis =>
    obtain ⟨nonneg, consistent⟩ := inductionHypothesis
    exact next_consistent consistent notRandom (fun isExact => dearest isExact _ meets) isNext

/-- Two relaxed copies of one operator: the first reaches a fact that the second needs together with the
fact of another operator. -/
def twoCopiesTask : RelaxedTask where
  options := defaultOptions
  relaxedOperators :=
    [{ originalOpId := some 0
       preconditions := [.artificialPrecondition]
       effects := [.fact 0 1]
       infinite := false },
      { originalOpId := some 1
        preconditions := [.artificialPrecondition]
        effects := [.fact 1 1]
        infinite := false },
      { originalOpId := some 0
        preconditions := [.fact 0 1, .fact 1 1]
        effects := [.fact 2 1]
        infinite := false },
      { originalOpId := none
        preconditions := [.fact 2 1]
        effects := [.artificialGoal]
        infinite := false }]
  opBaseCost := fun opId => if opId = 0 then 10 else 9
  opBaseCost_nonneg := by intro opId; split <;> norm_num
  goal_effects := by simp
  stateFacts := []
  conditionCount := 0
  numericInitialState := fun _ => 0
  netEffect := fun _ _ => 0

end LandmarkLoop

end CutPlan.Landmarks
