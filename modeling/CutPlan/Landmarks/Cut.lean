import CutPlan.Landmarks.FirstExploration
import CutPlan.Lib.DepthFirst

/-! # The cut

`mark_goal_plateau` marks the propositions from which free operators lead to the goal, and
`second_exploration` collects the operators that lead from what the state reaches into this zone.  Both
follow an operator from its supporter only.
-/

namespace CutPlan.Landmarks

open CutPlan.Lib

namespace Exploration

variable {task : RelaxedTask} {env : Environment} (costs : task.Op → ℚ)
  (state : Exploration task env)

/-- The multiplicity that both explorations use, unless it does not reach the precision. -/
def cutMultiplicity (index : task.Op) (effect : RelaxedProposition) : Option ℚ :=
  let m := task.calculateNumericTimes (!task.options.disableMa) effect index
  if task.options.precision ≤ m then some m else none

/-- The supporters of the free operators that achieve the subgoal. -/
def plateauSupporters (subgoal : RelaxedProposition) : List RelaxedProposition :=
  (task.effectOf subgoal).filterMap fun achiever =>
    if costs achiever < task.options.precision ∧ state.unsatisfiedPreconditions achiever = 0 ∧
        (cutMultiplicity achiever subgoal).isSome then
      state.hMaxSupporter achiever
    else none

/-- The propositions that can be marked: the goal and what supports an operator. -/
def markable : Finset RelaxedProposition :=
  insert .artificialGoal <|
    ((List.finRange task.relaxedOperators.length).filterMap state.hMaxSupporter).toFinset

/-- The propositions with the status `GOAL_ZONE` after `mark_goal_plateau`. -/
def markGoalPlateau : Finset RelaxedProposition :=
  markAll (plateauSupporters costs state) state.markable.card [.artificialGoal] ∅

/-! ## The second exploration -/

/-- The propositions with the status `BEFORE_GOAL_ZONE`, the queue from its back, and the cut with its
multiplicities. -/
structure CutSearch (task : RelaxedTask) where
  beforeGoalZone : Finset RelaxedProposition
  queue : List RelaxedProposition
  cut : List (task.Op × ℚ)

namespace CutSearch

variable (goalZone : Finset RelaxedProposition) (search : CutSearch task)

def inGoalZone (prop : RelaxedProposition) : Bool :=
  prop ∈ goalZone ∧ prop ∉ search.beforeGoalZone

/-- What the operator adds to the cut, one entry for each effect in the goal zone. -/
def cutEntries (index : task.Op) : List (task.Op × ℚ) :=
  ((task.op index).effects.filter (search.inGoalZone goalZone)).filterMap fun effect =>
    (cutMultiplicity index effect).map fun m => (index, m)

def edgeCost (entry : task.Op × ℚ) : ℚ := entry.2 * costs entry.1

/-- An effect outside of the goal zone is reached, if this costs less than the entries of the cut. -/
def reachEffect (minCutCost : Option ℚ) (index : task.Op) (search : CutSearch task)
    (effect : RelaxedProposition) : CutSearch task :=
  if effect ∉ search.beforeGoalZone ∧ effect ∉ goalZone ∧
      ∃ m ∈ cutMultiplicity index effect, ∀ least ∈ minCutCost, m * costs index < least then
    { search with
      beforeGoalZone := insert effect search.beforeGoalZone
      queue := effect :: search.queue }
  else search

def visitOperator (prop : RelaxedProposition) (search : CutSearch task) (index : task.Op) :
    CutSearch task :=
  if state.hMaxSupporter index = some prop ∧ index ∉ search.cut.map Prod.fst then
    let added := search.cutEntries goalZone index
    (task.op index).effects.foldl
      (reachEffect costs goalZone (added.map (edgeCost costs)).min? index)
      { search with cut := search.cut ++ added }
  else search

def run : ℕ → CutSearch task → CutSearch task
  | 0, search => search
  | fuel + 1, search =>
    match search.queue with
    | [] => search
    | prop :: rest =>
      run fuel <|
        (task.preconditionOf prop).foldl (visitOperator costs state goalZone prop)
          { search with queue := rest }

variable (task) in
def start : CutSearch task where
  beforeGoalZone := task.initialPropositions.toFinset
  queue := (.artificialPrecondition :: (task.stateFacts ++ task.stateConditions)).reverse
  cut := []

/-- How many propositions are popped at most: those in the queue and each effect once. -/
def popBound : ℕ :=
  search.queue.length +
    (((List.finRange task.relaxedOperators.length).flatMap fun index =>
      (task.op index).effects).toFinset \ search.beforeGoalZone).card

end CutSearch

def secondExploration : CutSearch task :=
  .run costs state (markGoalPlateau costs state) (CutSearch.start task).popBound (.start task)

/-! ## The goal zone -/

section GoalZone

variable {costs state}

theorem cutMultiplicity_eq_some {index : task.Op} {effect : RelaxedProposition} {m : ℚ} :
    cutMultiplicity index effect = some m ↔
      task.calculateNumericTimes (!task.options.disableMa) effect index = m ∧
        task.options.precision ≤ m := by
  unfold cutMultiplicity
  simp only
  split
  · rename_i large
    constructor
    · intro same
      cases same
      exact ⟨rfl, large⟩
    · rintro ⟨rfl, -⟩
      rfl
  · rename_i small
    constructor
    · intro none
      cases none
    · rintro ⟨rfl, large⟩
      exact absurd large small

theorem mem_markable {index : task.Op} {supporter : RelaxedProposition}
    (supports : state.hMaxSupporter index = some supporter) : supporter ∈ state.markable := by
  refine Finset.mem_insert_of_mem (List.mem_toFinset.mpr ?_)
  exact List.mem_filterMap.mpr ⟨index, List.mem_finRange index, supports⟩

theorem mem_markGoalPlateau_iff (prop : RelaxedProposition) :
    prop ∈ markGoalPlateau costs state ↔
      Reaches (plateauSupporters costs state) .artificialGoal prop := by
  have within : ∀ subgoal, ∀ supporter ∈ plateauSupporters costs state subgoal,
      supporter ∈ state.markable := by
    intro subgoal supporter member
    obtain ⟨achiever, -, isSupporter⟩ := List.mem_filterMap.mp member
    split at isSupporter
    · exact mem_markable isSupporter
    · cases isSupporter
  unfold markGoalPlateau
  rw [mem_markAll_iff state.markable within (by simp [markable]) (le_refl _)]
  simp

theorem goal_mem_markGoalPlateau : .artificialGoal ∈ markGoalPlateau costs state :=
  (mem_markGoalPlateau_iff _).mpr .refl

/-- A free operator that leads into the zone has its supporter in the zone. -/
theorem supporter_mem_markGoalPlateau {index : task.Op} {effect supporter : RelaxedProposition}
    {m : ℚ} (inZone : effect ∈ markGoalPlateau costs state) (member : effect ∈ (task.op index).effects)
    (free : costs index < task.options.precision)
    (satisfied : state.unsatisfiedPreconditions index = 0)
    (multiplicity : cutMultiplicity index effect = some m)
    (supports : state.hMaxSupporter index = some supporter) :
    supporter ∈ markGoalPlateau costs state := by
  rw [mem_markGoalPlateau_iff] at inZone ⊢
  refine inZone.tail (List.mem_filterMap.mpr ⟨index, RelaxedTask.mem_effectOf.mpr member, ?_⟩)
  rw [if_pos ⟨free, satisfied, by simp [multiplicity]⟩]
  exact supports

end GoalZone

end Exploration

end CutPlan.Landmarks
