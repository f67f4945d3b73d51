import CutPlan.Landmarks.HMaxInvariant

/-! # The costs of the first exploration

The equations of the numeric maximum heuristic, and when the first exploration solves them: an operator
that reaches a condition with a multiplicity below the precision is skipped as if the condition held
already, and an operator without preconditions is never triggered.
-/

namespace CutPlan.Landmarks

open CutPlan.Lib CutPlan.Lib.RuleGraph

namespace Exploration

variable {task : RelaxedTask} {env : Environment}

/-- The cost with which an operator achieves an effect from its preconditions. -/
def hMaxWeight (costs : task.Op → ℚ) (index : task.Op) (effect : RelaxedProposition) : Option ℚ :=
  match effect with
  | .condition id =>
    if task.numericInitialState id < task.options.precision then none
    else if !task.options.useIrmax && !(task.op index).infinite then
      let net := task.netOf index id
      if net < task.options.precision then none
      else
        let m := task.numericInitialState id / net
        some ((if task.options.ceilingLessThanOne then max m 1 else m) * costs index)
    else some (costs index)
  | _ => some (costs index)

theorem hMaxWeight_nonneg {costs : task.Op → ℚ} (nonneg : ∀ index, 0 ≤ costs index)
    {index : task.Op} {effect : RelaxedProposition} {weight : ℚ}
    (weighs : hMaxWeight costs index effect = some weight) : 0 ≤ weight := by
  cases effect with
  | condition id =>
    simp only [hMaxWeight] at weighs
    split at weighs
    · cases weighs
    · rename_i lacks
      split at weighs
      · split at weighs
        · cases weighs
        · rename_i notSmall
          have quotient : 0 ≤ task.numericInitialState id / task.netOf index id :=
            div_nonneg (task.options.precision_nonneg.trans (not_lt.mp lacks))
              (task.options.precision_nonneg.trans (not_lt.mp notSmall))
          cases weighs
          refine mul_nonneg ?_ (nonneg index)
          split
          · exact quotient.trans (le_max_left _ _)
          · exact quotient
      · cases weighs
        exact nonneg index
  | artificialPrecondition | artificialGoal | fact =>
    cases weighs
    exact nonneg index

/-- The relaxed task as rules with costs: the propositions of the state are free. -/
def hMaxGraph (costs : task.Op → ℚ) (nonneg : ∀ index, 0 ≤ costs index) :
    RuleGraph RelaxedProposition task.Op ℚ where
  source := fun prop => prop ∈ task.initialPropositions
  premises := fun index => (task.op index).preconditions
  weight := fun index prop =>
    if prop ∈ (task.op index).effects then hMaxWeight costs index prop else none
  weight_nonneg := by
    intro index prop value weighs
    split at weighs
    · exact hMaxWeight_nonneg nonneg weighs
    · cases weighs

/-- The exploration does not follow the operator to the effect. -/
def EdgeDropped (task : RelaxedTask) (index : task.Op) (effect : RelaxedProposition) : Prop :=
  (task.op index).preconditions = [] ∨
    match effect with
    | .condition _ =>
      task.calculateNumericTimes (!task.options.useIrmax) effect index < task.options.precision
    | _ => False

/-- The state has the costs of the numeric maximum heuristic, and each triggered operator has one of
its dearest preconditions as supporter. -/
structure ComputesHMax (costs : task.Op → ℚ) (nonneg : ∀ index, 0 ≤ costs index)
    (state : Exploration task env) : Prop where
  reached : ∀ prop, (state.hMaxCost prop).isSome = true ↔ (hMaxGraph costs nonneg).Reachable prop
  leastFixpoint : (hMaxGraph costs nonneg).IsLeastFixpoint state.hMaxCost
  supporters : ∀ index, (task.op index).preconditions ≠ [] →
    state.unsatisfiedPreconditions index = 0 →
      ∃ supporter ∈ (task.op index).preconditions, state.hMaxSupporter index = some supporter ∧
        ∃ cost, state.hMaxCost supporter = some cost ∧
          ∀ premise ∈ (task.op index).preconditions, Within state.hMaxCost premise cost

/-- What an operator that is not followed would achieve can be derived as cheaply without it. -/
def DroppedEdgesRedundant (costs : task.Op → ℚ) (nonneg : ∀ index, 0 ≤ costs index) : Prop :=
  ∀ index effect value, (hMaxGraph costs nonneg).weight index effect = some value →
    EdgeDropped task index effect → ∀ bound, 0 ≤ bound →
      (∀ premise ∈ (task.op index).preconditions,
        ∃ cost, (queueGraph costs nonneg).Derives premise cost ∧ cost ≤ bound) →
      ∃ cost, (queueGraph costs nonneg).Derives effect cost ∧ cost ≤ bound + value

/-! ## Edges that are followed -/

section Edges

variable {costs : task.Op → ℚ} {nonneg : ∀ index, 0 ≤ costs index} {index : task.Op}
  {effect : RelaxedProposition}

/-- Where the multiplicity is computed and reaches the precision, it is the one of the equations. -/
theorem queueWeight_of_followed
    (followed : match effect with
      | .condition _ => task.options.precision ≤
          task.calculateNumericTimes (!task.options.useIrmax) effect index
      | _ => True) :
    queueWeight costs index effect = hMaxWeight costs index effect := by
  cases effect with
  | condition id =>
    simp only at followed
    simp only [queueWeight, hMaxWeight, if_pos followed]
    by_cases lacks : task.options.precision ≤ task.numericInitialState id
    · rw [if_pos lacks, if_neg (not_lt.mpr lacks)]
      unfold RelaxedTask.calculateNumericTimes at followed ⊢
      simp only at followed ⊢
      by_cases multiplies : (!task.options.useIrmax && !(task.op index).infinite) = true
      · rw [if_pos multiplies] at followed ⊢
        rw [if_pos multiplies]
        by_cases small : task.netOf index id < task.options.precision
        · -- the multiplicity -1 does not reach a precision
          rw [if_pos small] at followed
          exact absurd followed (by linarith [task.options.precision_nonneg])
        · rw [if_neg small] at followed ⊢
          rw [if_neg small]
          by_cases tiny :
              task.numericInitialState id / task.netOf index id < task.options.precision
          · -- 0 reaches the precision 0 only, and no quotient is below that
            rw [if_pos tiny] at followed
            have quotient : 0 ≤ task.numericInitialState id / task.netOf index id :=
              div_nonneg (task.options.precision_nonneg.trans lacks)
                (task.options.precision_nonneg.trans (not_lt.mp small))
            exact absurd tiny (not_lt.mpr (followed.trans quotient))
          · rw [if_neg tiny]
      · rw [if_neg multiplies, if_neg multiplies, one_mul]
    · rw [if_neg lacks, if_pos (not_le.mp lacks)]
  | artificialPrecondition | artificialGoal | fact => rfl

theorem hMaxGraph_weight_of_queueGraph {value : ℚ}
    (weighs : (queueGraph costs nonneg).weight index effect = some value) :
    (hMaxGraph costs nonneg).weight index effect = some value := by
  simp only [queueGraph, hMaxGraph] at weighs ⊢
  split at weighs
  · rename_i applies
    rw [if_pos applies.1, ← weighs]
    refine (queueWeight_of_followed ?_).symm
    cases effect with
    | condition id =>
      simp only [queueWeight] at weighs ⊢
      split at weighs
      · split at weighs
        · assumption
        · cases weighs
      · cases weighs
    | artificialPrecondition | artificialGoal | fact => trivial
  · cases weighs

theorem queueGraph_weight_of_followed {value : ℚ}
    (weighs : (hMaxGraph costs nonneg).weight index effect = some value)
    (followed : ¬ EdgeDropped task index effect) :
    (queueGraph costs nonneg).weight index effect = some value := by
  unfold EdgeDropped at followed
  rw [not_or] at followed
  simp only [queueGraph, hMaxGraph] at weighs ⊢
  split at weighs
  · rename_i applies
    rw [if_pos ⟨applies, followed.1⟩, ← weighs]
    apply queueWeight_of_followed
    cases effect with
    | condition id => exact not_lt.mp followed.2
    | artificialPrecondition | artificialGoal | fact => trivial
  · cases weighs

theorem hMaxGraph_derives_of_queueGraph {prop : RelaxedProposition} {cost : ℚ}
    (derives : (queueGraph costs nonneg).Derives prop cost) :
    (hMaxGraph costs nonneg).Derives prop cost := by
  induction derives with
  | source isSource => exact .source isSource
  | rule premiseCosts weighs bound _ below premises =>
    exact .rule premiseCosts (hMaxGraph_weight_of_queueGraph weighs) bound premises below

end Edges

/-! ## Both directions -/

section Labels

variable {costs : task.Op → ℚ} {nonneg : ∀ index, 0 ≤ costs index}
  {label : RelaxedProposition → Option ℚ}

theorem derives_within_iff (cheapest : (queueGraph costs nonneg).Cheapest label)
    (prop : RelaxedProposition) (bound : ℚ) :
    (∃ cost, (queueGraph costs nonneg).Derives prop cost ∧ cost ≤ bound) ↔
      Within label prop bound := by
  constructor
  · rintro ⟨cost, derives, le⟩
    exact (cheapest.least prop cost derives).mono le
  · rintro ⟨cost, labelled, le⟩
    exact ⟨cost, cheapest.sound prop cost labelled, le⟩

/-- Costs that are cheapest for the edges followed are cheapest for all, if the edges that are dropped
are redundant. -/
theorem cheapest_of_redundant (cheapest : (queueGraph costs nonneg).Cheapest label)
    (redundant : DroppedEdgesRedundant costs nonneg) :
    (hMaxGraph costs nonneg).Cheapest label := by
  refine cheapest_of_closed (fun prop cost labelled =>
    hMaxGraph_derives_of_queueGraph (cheapest.sound prop cost labelled)) ⟨cheapest.closed.sources, ?_⟩
  intro index effect value bound weighs boundNonneg premises
  by_cases dropped : EdgeDropped task index effect
  · rw [← derives_within_iff cheapest]
    refine redundant index effect value weighs dropped bound boundNonneg fun premise member => ?_
    rw [derives_within_iff cheapest]
    exact premises premise member
  · exact cheapest.closed.rules index effect value bound (queueGraph_weight_of_followed weighs dropped)
      boundNonneg premises

theorem redundant_of_closed (cheapest : (queueGraph costs nonneg).Cheapest label)
    (closed : (hMaxGraph costs nonneg).Closed label) : DroppedEdgesRedundant costs nonneg := by
  intro index effect value weighs _ bound boundNonneg premises
  rw [derives_within_iff cheapest]
  refine closed.rules index effect value bound weighs boundNonneg fun premise member => ?_
  rw [← derives_within_iff cheapest]
  exact premises premise member

end Labels

/-- The first exploration computes the numeric maximum heuristic if and only if the edges that it does
not follow are redundant. -/
theorem firstExploration_computesHMax_iff (costs : task.Op → ℚ) (nonneg : ∀ index, 0 ≤ costs index)
    (draws : ℕ) (notRandom : task.options.useRandomPcf = false) :
    ComputesHMax costs nonneg (firstExploration env costs draws) ↔
      DroppedEdgesRedundant costs nonneg := by
  have settled : Settled costs nonneg (firstExploration env costs draws) :=
    firstExploration_settled costs nonneg draws
  constructor
  · intro computes
    exact redundant_of_closed settled.cheapest computes.leastFixpoint.isFixpoint.closed
  · intro redundant
    have cheapest := cheapest_of_redundant settled.cheapest redundant
    refine ⟨cheapest.isSome_iff, cheapest.isLeastFixpoint, fun index nonempty satisfied => ?_⟩
    obtain ⟨supporter, member, isSupporter, labelled, dearest⟩ :=
      settled.supported index nonempty satisfied
    exact ⟨supporter, member, isSupporter, _, labelled, dearest (by simp [notRandom])⟩

/-! ## One operator and one condition -/

/-- The options of the program's defaults. -/
def defaultOptions : LandmarkOptions where
  ceilingLessThanOne := false
  useRandomPcf := false
  useIrmax := false
  disableMa := false
  precision := 1 / 1000000
  precision_nonneg := by norm_num

def defaultEnvironment : Environment where
  queue := HeapQueue.sorted ℚ RelaxedProposition
  rng := fun _ _ => 0
  rng_lt := fun _ _ => id

/-- The goal is a condition that lacks some amount, and one operator adds 10 to it at the cost 1. -/
def refillTask (lacks : ℚ) : RelaxedTask where
  options := defaultOptions
  relaxedOperators :=
    [{ originalOpId := some 0
       preconditions := [.artificialPrecondition]
       effects := [.condition 0]
       infinite := false },
      { originalOpId := none
        preconditions := [.condition 0]
        effects := [.artificialGoal]
        infinite := false }]
  opBaseCost := fun _ => 1
  opBaseCost_nonneg := fun _ => zero_le_one
  goal_effects := by simp
  stateFacts := []
  conditionCount := 1
  numericInitialState := fun _ => lacks
  netEffect := fun _ _ => 10

/-- A condition that lacks 2/1000000 is not reached, though the operator adds 10 to it. -/
theorem small_lack_not_reached :
    ¬ ComputesHMax (refillTask (2 / 1000000)).baseCost RelaxedTask.baseCost_nonneg
      (firstExploration defaultEnvironment (refillTask (2 / 1000000)).baseCost 0) := by
  intro computes
  have unreached : ((firstExploration defaultEnvironment (refillTask (2 / 1000000)).baseCost
      0).hMaxCost (.condition 0)).isSome = false := by
    decide +kernel
  have reachable : (hMaxGraph (refillTask (2 / 1000000)).baseCost RelaxedTask.baseCost_nonneg).Reachable
      (.condition 0) := by
    have edge : (hMaxGraph (refillTask (2 / 1000000)).baseCost RelaxedTask.baseCost_nonneg).weight
        (0 : Fin 2) (.condition 0) = some (2 / 10000000) := by
      decide +kernel
    refine .rule edge ?_
    intro premise member
    rw [List.mem_singleton.mp member]
    exact .source RelaxedTask.artificialPrecondition_mem
  rw [← computes.reached, unreached] at reachable
  exact Bool.false_ne_true reachable

theorem refill_computesHMax :
    ComputesHMax (refillTask 5).baseCost RelaxedTask.baseCost_nonneg
        (firstExploration defaultEnvironment (refillTask 5).baseCost 0) ↔
      DroppedEdgesRedundant (refillTask 5).baseCost RelaxedTask.baseCost_nonneg :=
  firstExploration_computesHMax_iff _ _ 0 rfl

end Exploration

end CutPlan.Landmarks
