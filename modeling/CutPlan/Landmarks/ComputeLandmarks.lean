import CutPlan.Landmarks.Cut

/-! # The loop of the landmarks

`compute_landmarks` finds a cut, reduces the costs of its operators, hands the landmark to the callback
and explores again from what has become cheaper.
-/

namespace CutPlan.Landmarks

open CutPlan.Lib

namespace Exploration

variable {task : RelaxedTask} {env : Environment}

/-! ## The incremental exploration -/

section Incremental

variable (costs : task.Op → ℚ) (state : Exploration task env)

def originalToRelaxedOperators (task : RelaxedTask) (opId : ℕ) : List task.Op :=
  (List.finRange task.relaxedOperators.length).filter fun index =>
    (task.op index).originalOpId = some opId

/-- The relaxed copies of the operators of the cut, once for each of its entries. -/
def requeued (cut : List task.Op) : List task.Op :=
  cut.flatMap fun index =>
    (task.op index).originalOpId.elim [] (originalToRelaxedOperators task)

/-- The effects of a relaxed operator are enqueued from its supporter. -/
def requeueEffects (state : Exploration task env) (index : task.Op) : Exploration task env :=
  if state.unsatisfiedPreconditions index = 0 then
    match state.hMaxSupporter index with
    | some supporter => state.updateEffects costs supporter index
    | none => state
  else state

def updateHMaxSupporter (supporter : RelaxedProposition) (index : task.Op) : Exploration task env :=
  let dearest := (task.op index).preconditions.foldl
    (fun dearest prop => if state.costOf dearest < state.costOf prop then prop else dearest) supporter
  { state with
    hMaxSupporter := Function.update state.hMaxSupporter index (some dearest)
    hMaxSupporterCost := Function.update state.hMaxSupporterCost index (state.costOf dearest) }

def renewSupporter (supporter : RelaxedProposition) (index : task.Op) : Exploration task env :=
  if task.options.useRandomPcf then state.selectRandomSupporter index
  else state.updateHMaxSupporter supporter index

/-- An operator whose supporter has been popped with a lower cost. -/
def lowerSupporter (prop : RelaxedProposition) (propCost : ℚ) (state : Exploration task env)
    (index : task.Op) : Exploration task env :=
  if state.hMaxSupporter index = some prop ∧ propCost < state.hMaxSupporterCost index then
    let after := state.renewSupporter prop index
    if after.hMaxSupporterCost index ≠ state.hMaxSupporterCost index then
      match after.hMaxSupporter index with
      | some supporter => after.updateEffects costs supporter index
      | none => after
    else after
  else state

def processLowered (state : Exploration task env) (entry : ℚ × RelaxedProposition) :
    Exploration task env :=
  if state.costOf entry.2 < entry.1 then state
  else (task.preconditionOf entry.2).foldl (lowerSupporter costs entry.2 (state.costOf entry.2)) state

def exploreLowered : ℕ → Exploration task env → Exploration task env
  | 0, state => state
  | fuel + 1, state =>
    match env.queue.pop state.priorityQueue with
    | none => state
    | some (entry, rest) =>
      exploreLowered fuel ({ state with priorityQueue := rest }.processLowered costs entry)

def edges (task : RelaxedTask) : List (task.Op × RelaxedProposition) :=
  (List.finRange task.relaxedOperators.length).flatMap fun index =>
    (task.op index).effects.map fun effect => (index, effect)

def allPreconditions (task : RelaxedTask) : List RelaxedProposition :=
  (List.finRange task.relaxedOperators.length).flatMap fun index => (task.op index).preconditions

/-- How many entries the incremental exploration pops at most: those of the queue, and one for each
cost that a chain of edges from a precondition can give to an effect. -/
def lowerBound : ℕ :=
  (env.queue.entries state.priorityQueue).card + (edges task).length *
    ((allPreconditions task).length * ((edges task).length + 1) ^ (edges task).length)

/-- An operator without preconditions has no supporter, and its effects are enqueued from a null
pointer. -/
def LacksSupporter (index : task.Op) : Prop :=
  state.unsatisfiedPreconditions index = 0 ∧ state.hMaxSupporter index = none ∧
    (task.op index).effects ≠ []

instance (index : task.Op) : Decidable (state.LacksSupporter index) := by
  unfold LacksSupporter
  infer_instance

/-- The exploration after the costs of the operators in the cut have been reduced; `none` where the
program leaves its data. -/
def firstExplorationIncremental (cut : List task.Op) : Option (Exploration task env) :=
  if (∃ index ∈ cut, (task.op index).originalOpId = none) ∨
      ∃ index ∈ requeued cut, state.LacksSupporter index then none
  else
    let start := (requeued cut).foldl (requeueEffects costs) state
    some (exploreLowered costs start.lowerBound start)

end Incremental

end Exploration

/-! ## The costs of a cut -/

section Charging

variable {task : RelaxedTask} (costs : task.Op → ℚ) (cut : List (task.Op × ℚ))

/-- `cut_cost`, unless the cut is empty. -/
def cutCost : Option ℚ := (cut.map (Exploration.CutSearch.edgeCost costs)).min?

/-- `operator_to_min_cut_cost`. -/
def operatorToMinCutCost (opId : ℕ) : Option ℚ :=
  ((cut.filter fun entry => (task.op entry.1).originalOpId = some opId).map
    (Exploration.CutSearch.edgeCost costs)).min?

/-- The multiplicity with which the relaxed operator is charged, if it is. -/
def chargedMultiplicity (index : task.Op) : Option ℚ := do
  let opId ← (task.op index).originalOpId
  let minCutCost ← operatorToMinCutCost costs cut opId
  if minCutCost < task.options.precision ∨ costs index < task.options.precision then none
  else some (minCutCost / costs index)

/-- The cost of the relaxed operator after a cut of this cost. -/
def reducedCost (cost : ℚ) (index : task.Op) : ℚ :=
  match chargedMultiplicity costs cut index with
  | none => costs index
  | some m =>
    if costs index - cost / m < task.options.precision then 0 else costs index - cost / m

/-- `operator_to_m`: the multiplicity of the copy that is charged last. -/
def operatorToM (opId : ℕ) : Option ℚ :=
  ((Exploration.originalToRelaxedOperators task opId).filterMap
    (chargedMultiplicity costs cut)).getLast?

/-- What `landmark_callback` receives: the multiplicities of the original operators. -/
def landmark : List (ℚ × ℕ) :=
  (cut.filterMap fun entry => (task.op entry.1).originalOpId).dedup.filterMap fun opId =>
    (operatorToM costs cut opId).map fun m => (m, opId)

end Charging

/-! ## The loop -/

structure LandmarkLoop (task : RelaxedTask) (env : Environment) where
  exploration : Exploration task env
  costs : task.Op → ℚ
  /-- The landmarks handed to the callback, with the costs of their cuts. -/
  landmarks : List (List (ℚ × ℕ) × ℚ)

namespace LandmarkLoop

variable {task : RelaxedTask} {env : Environment}

variable (task env) in
def start (draws : ℕ) : LandmarkLoop task env where
  exploration := .firstExploration env task.baseCost draws
  costs := task.baseCost
  landmarks := []

variable (loop : LandmarkLoop task env)

/-- The condition of the loop, after the goal has been found reachable. -/
def Continues : Prop :=
  ∃ cost ∈ loop.exploration.hMaxCost .artificialGoal, task.options.precision ≤ cost

def search : Exploration.CutSearch task :=
  Exploration.secondExploration loop.costs loop.exploration

def cut : List (task.Op × ℚ) := loop.search.cut

/-- The assertions of an iteration: the cut is not empty, and the second exploration has reached only
what the first one has. -/
def AssertionsHold : Prop :=
  loop.cut ≠ [] ∧ ∀ prop ∈ loop.search.beforeGoalZone, (loop.exploration.hMaxCost prop).isSome = true

instance : Decidable loop.AssertionsHold := by
  unfold AssertionsHold
  infer_instance

def reduced (cost : ℚ) : task.Op → ℚ := reducedCost loop.costs loop.cut cost

/-- One iteration; `none` where an assertion fails or the program leaves its data.  The zones are
forgotten at its end. -/
def next : Option (LandmarkLoop task env) :=
  if loop.AssertionsHold then do
    let cost ← cutCost loop.costs loop.cut
    let exploration ←
      loop.exploration.firstExplorationIncremental (loop.reduced cost) (loop.cut.map Prod.fst)
    some
      { exploration := exploration
        costs := loop.reduced cost
        landmarks := loop.landmarks ++ [(landmark loop.costs loop.cut, cost)] }
  else none

/-- The states of the loop in a run of `compute_landmarks`. -/
inductive Reached (draws : ℕ) : LandmarkLoop task env → Prop
  | start : Reached draws (start task env draws)
  | next {before after : LandmarkLoop task env} (reached : Reached draws before)
      (continues : before.Continues) (isNext : before.next = some after) : Reached draws after

/-- The states after so many iterations, in runs whose iterations start from states that meet the
condition. -/
inductive ReachedIf (condition : LandmarkLoop task env → Prop) (draws : ℕ) :
    ℕ → LandmarkLoop task env → Prop
  | start : ReachedIf condition draws 0 (start task env draws)
  | next {iterations : ℕ} {before after : LandmarkLoop task env}
      (reached : ReachedIf condition draws iterations before) (meets : condition before)
      (continues : before.Continues) (isNext : before.next = some after) :
      ReachedIf condition draws (iterations + 1) after

variable {loop}

/-- What an iteration has done. -/
theorem next_eq_some {after : LandmarkLoop task env} (isNext : loop.next = some after) :
    ∃ cost, loop.AssertionsHold ∧ cutCost loop.costs loop.cut = some cost ∧
      loop.exploration.firstExplorationIncremental (loop.reduced cost) (loop.cut.map Prod.fst) =
        some after.exploration ∧
      after.costs = loop.reduced cost ∧
      after.landmarks = loop.landmarks ++ [(landmark loop.costs loop.cut, cost)] := by
  unfold next at isNext
  split at isNext
  · rename_i asserted
    obtain ⟨cost, isCost, rest⟩ := Option.bind_eq_some_iff.mp isNext
    obtain ⟨exploration, explores, isAfter⟩ := Option.bind_eq_some_iff.mp rest
    cases isAfter
    exact ⟨cost, asserted, isCost, explores, rfl, rfl⟩
  · cases isNext

end LandmarkLoop

end CutPlan.Landmarks
