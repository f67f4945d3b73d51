import CutPlan.Landmarks.RelaxedTask

/-! # The first exploration

`first_exploration` pops the propositions in the order of their costs and applies the relaxed operators
whose preconditions have all been popped.
-/

namespace CutPlan.Landmarks

open CutPlan.Lib

/-- The state of the propositions, the relaxed operators and the priority queue. -/
structure Exploration (task : RelaxedTask) (env : Environment) where
  /-- `h_max_cost`; `none` while the status of the proposition is `UNREACHED`. -/
  hMaxCost : RelaxedProposition → Option ℚ
  explored : RelaxedProposition → Bool
  unsatisfiedPreconditions : task.Op → ℤ
  hMaxSupporter : task.Op → Option RelaxedProposition
  hMaxSupporterCost : task.Op → ℚ
  priorityQueue : env.queue.Heap
  /-- How many random numbers have been drawn. -/
  draws : ℕ

namespace Exploration

variable {task : RelaxedTask} {env : Environment} (costs : task.Op → ℚ)

def costOf (state : Exploration task env) (prop : RelaxedProposition) : ℚ :=
  (state.hMaxCost prop).getD 0

def enqueueIfNecessary (state : Exploration task env) (prop : RelaxedProposition) (cost : ℚ) :
    Exploration task env :=
  if (state.hMaxCost prop).isNone || cost < state.costOf prop then
    { state with
      hMaxCost := Function.update state.hMaxCost prop (some cost)
      priorityQueue := env.queue.push cost prop state.priorityQueue }
  else state

def updateQueue (state : Exploration task env) (prop effect : RelaxedProposition) (index : task.Op) :
    Exploration task env :=
  match effect with
  | .condition id =>
    if task.options.precision ≤ task.numericInitialState id then
      let m := task.calculateNumericTimes (!task.options.useIrmax) effect index
      if task.options.precision ≤ m then
        state.enqueueIfNecessary effect (state.costOf prop + m * costs index)
      else state
    else state
  | _ => state.enqueueIfNecessary effect (state.costOf prop + costs index)

/-- The preconditions that `select_random_supporter` chooses from. -/
def supporterPool (state : Exploration task env) (index : task.Op) : List RelaxedProposition :=
  let preconditions := (task.op index).preconditions
  let positive := preconditions.filter fun prop => 0 < state.costOf prop
  if positive.isEmpty then preconditions else positive

def selectRandomSupporter (state : Exploration task env) (index : task.Op) : Exploration task env :=
  let pool := state.supporterPool index
  let supporter := pool[env.rng state.draws pool.length]?
  { state with
    hMaxSupporter := Function.update state.hMaxSupporter index supporter
    hMaxSupporterCost :=
      Function.update state.hMaxSupporterCost index (supporter.elim 0 state.costOf)
    draws := state.draws + 1 }

/-- The last precondition of the operator has been popped. -/
def setSupporter (state : Exploration task env) (prop : RelaxedProposition) (index : task.Op) :
    Exploration task env :=
  if task.options.useRandomPcf then state.selectRandomSupporter index
  else
    { state with
      hMaxSupporter := Function.update state.hMaxSupporter index (some prop)
      hMaxSupporterCost := Function.update state.hMaxSupporterCost index (state.costOf prop) }

def updateEffects (state : Exploration task env) (prop : RelaxedProposition) (index : task.Op) :
    Exploration task env :=
  (task.op index).effects.foldl
    (fun state effect => state.updateQueue costs prop effect index) state

def decrementUnsatisfied (state : Exploration task env) (index : task.Op) : Exploration task env :=
  { state with
    unsatisfiedPreconditions := Function.update state.unsatisfiedPreconditions index
      (state.unsatisfiedPreconditions index - 1) }

def satisfyPrecondition (prop : RelaxedProposition) (state : Exploration task env)
    (index : task.Op) : Exploration task env :=
  let state := state.decrementUnsatisfied index
  if state.unsatisfiedPreconditions index = 0 then
    (state.setSupporter prop index).updateEffects costs prop index
  else state

/-- What happens to an entry that has been popped. -/
def processEntry (state : Exploration task env) (entry : ℚ × RelaxedProposition) :
    Exploration task env :=
  if state.costOf entry.2 < entry.1 then state
  else
    (task.preconditionOf entry.2).foldl (satisfyPrecondition costs entry.2)
      { state with explored := Function.update state.explored entry.2 true }

def explore : ℕ → Exploration task env → Exploration task env
  | 0, state => state
  | fuel + 1, state =>
    match env.queue.pop state.priorityQueue with
    | none => state
    | some (entry, rest) => explore fuel ({ state with priorityQueue := rest }.processEntry costs entry)

variable (task env) in
def setupExplorationQueue (draws : ℕ) : Exploration task env where
  hMaxCost := fun _ => none
  explored := fun _ => false
  unsatisfiedPreconditions := fun index => (task.op index).preconditions.length
  hMaxSupporter := fun _ => none
  hMaxSupporterCost := fun _ => 2147483647
  priorityQueue := env.queue.empty
  draws := draws

variable (task env) in
def setupExplorationQueueState (draws : ℕ) : Exploration task env :=
  task.initialPropositions.foldl (fun state prop => state.enqueueIfNecessary prop 0)
    (setupExplorationQueue task env draws)

/-- How many entries the exploration pops at most: those of the queue and one for each effect of an
operator that has not been applied yet. -/
def popBound (state : Exploration task env) : ℕ :=
  (env.queue.entries state.priorityQueue).card +
    ∑ index, if 0 < state.unsatisfiedPreconditions index then (task.op index).effects.length else 0

variable (env) in
def firstExploration (draws : ℕ) : Exploration task env :=
  let start := setupExplorationQueueState task env draws
  explore costs start.popBound start

/-! ## Single steps -/

section Steps

variable {costs} {state : Exploration task env}

/-- The weight with which `update_queue` carries the cost of a precondition to the effect. -/
def queueWeight (costs : task.Op → ℚ) (index : task.Op) (effect : RelaxedProposition) : Option ℚ :=
  match effect with
  | .condition id =>
    if task.options.precision ≤ task.numericInitialState id then
      let m := task.calculateNumericTimes (!task.options.useIrmax) effect index
      if task.options.precision ≤ m then some (m * costs index) else none
    else none
  | _ => some (costs index)

theorem updateQueue_eq (prop effect : RelaxedProposition) (index : task.Op) :
    state.updateQueue costs prop effect index =
      (queueWeight costs index effect).elim state fun weight =>
        state.enqueueIfNecessary effect (state.costOf prop + weight) := by
  cases effect with
  | condition id =>
    simp only [updateQueue, queueWeight]
    split
    · split <;> rfl
    · rfl
  | artificialPrecondition | artificialGoal | fact => rfl

/-- The fields that `enqueue_if_necessary` does not touch. -/
structure SameOperators (state after : Exploration task env) : Prop where
  explored : after.explored = state.explored
  unsatisfied : after.unsatisfiedPreconditions = state.unsatisfiedPreconditions
  supporter : after.hMaxSupporter = state.hMaxSupporter
  supporterCost : after.hMaxSupporterCost = state.hMaxSupporterCost
  draws : after.draws = state.draws

theorem SameOperators.refl : SameOperators state state := ⟨rfl, rfl, rfl, rfl, rfl⟩

theorem SameOperators.trans {middle after : Exploration task env}
    (first : SameOperators state middle) (second : SameOperators middle after) :
    SameOperators state after :=
  ⟨second.explored.trans first.explored, second.unsatisfied.trans first.unsatisfied,
    second.supporter.trans first.supporter, second.supporterCost.trans first.supporterCost,
    second.draws.trans first.draws⟩

theorem enqueueIfNecessary_sameOperators (prop : RelaxedProposition) (cost : ℚ) :
    SameOperators state (state.enqueueIfNecessary prop cost) := by
  unfold enqueueIfNecessary
  split
  · exact ⟨rfl, rfl, rfl, rfl, rfl⟩
  · exact .refl

theorem updateQueue_sameOperators (prop effect : RelaxedProposition) (index : task.Op) :
    SameOperators state (state.updateQueue costs prop effect index) := by
  rw [updateQueue_eq]
  cases queueWeight costs index effect with
  | none => exact .refl
  | some weight => exact enqueueIfNecessary_sameOperators _ _

theorem updateEffects_sameOperators (prop : RelaxedProposition) (index : task.Op) :
    SameOperators state (state.updateEffects costs prop index) := by
  unfold updateEffects
  generalize (task.op index).effects = effects
  induction effects generalizing state with
  | nil => exact .refl
  | cons effect effects inductionHypothesis =>
    exact (updateQueue_sameOperators prop effect index).trans inductionHypothesis

/-! ## The number of pops -/

theorem card_enqueueIfNecessary (prop : RelaxedProposition) (cost : ℚ) :
    (env.queue.entries (state.enqueueIfNecessary prop cost).priorityQueue).card ≤
      (env.queue.entries state.priorityQueue).card + 1 := by
  unfold enqueueIfNecessary
  split
  · simp [env.queue.entries_push]
  · exact Nat.le_succ _

variable (costs state) in
theorem card_updateEffects (prop : RelaxedProposition) (index : task.Op) :
    (env.queue.entries (state.updateEffects costs prop index).priorityQueue).card ≤
      (env.queue.entries state.priorityQueue).card + (task.op index).effects.length := by
  unfold updateEffects
  generalize (task.op index).effects = effects
  induction effects generalizing state with
  | nil => simp
  | cons effect effects inductionHypothesis =>
    have head : (env.queue.entries (state.updateQueue costs prop effect index).priorityQueue).card ≤
        (env.queue.entries state.priorityQueue).card + 1 := by
      rw [updateQueue_eq]
      cases queueWeight costs index effect with
      | none => exact Nat.le_succ _
      | some weight => exact card_enqueueIfNecessary _ _
    have tail := @inductionHypothesis (state.updateQueue costs prop effect index)
    rw [List.foldl_cons, List.length_cons]
    omega

theorem setSupporter_priorityQueue (prop : RelaxedProposition) (index : task.Op) :
    (state.setSupporter prop index).priorityQueue = state.priorityQueue := by
  unfold setSupporter
  split <;> rfl

theorem setSupporter_unsatisfied (prop : RelaxedProposition) (index : task.Op) :
    (state.setSupporter prop index).unsatisfiedPreconditions = state.unsatisfiedPreconditions := by
  unfold setSupporter
  split <;> rfl

theorem unsatisfied_decrementUnsatisfied (index other : task.Op) :
    (state.decrementUnsatisfied index).unsatisfiedPreconditions other =
      if other = index then state.unsatisfiedPreconditions index - 1
      else state.unsatisfiedPreconditions other := by
  unfold decrementUnsatisfied
  by_cases own : other = index
  · subst own
    simp
  · simp [own]

theorem popBound_satisfyPrecondition (prop : RelaxedProposition) (index : task.Op) :
    (state.satisfyPrecondition costs prop index).popBound ≤ state.popBound := by
  unfold satisfyPrecondition
  simp only
  split
  · rename_i satisfied
    rw [unsatisfied_decrementUnsatisfied, if_pos rfl] at satisfied
    -- the effects of the operator move from the sum into the queue
    have sums : (∑ other, if 0 < (state.decrementUnsatisfied index).unsatisfiedPreconditions other
          then (task.op other).effects.length else 0) + (task.op index).effects.length =
        ∑ other, if 0 < state.unsatisfiedPreconditions other
          then (task.op other).effects.length else 0 := by
      rw [← Finset.add_sum_erase _ _ (Finset.mem_univ index), add_right_comm,
        ← Finset.add_sum_erase Finset.univ (fun other => if 0 < state.unsatisfiedPreconditions other
          then (task.op other).effects.length else 0) (Finset.mem_univ index)]
      simp only [unsatisfied_decrementUnsatisfied, if_true]
      rw [if_neg (by omega), if_pos (by omega), zero_add]
      congr 1
      refine Finset.sum_congr rfl fun other member => ?_
      rw [if_neg (Finset.ne_of_mem_erase member)]
    have pushed := card_updateEffects costs ((state.decrementUnsatisfied index).setSupporter prop index)
      prop index
    rw [setSupporter_priorityQueue] at pushed
    have sameQueue : (state.decrementUnsatisfied index).priorityQueue = state.priorityQueue := rfl
    unfold popBound
    rw [(updateEffects_sameOperators prop index).unsatisfied, setSupporter_unsatisfied]
    rw [sameQueue] at pushed
    omega
  · have stillPositive : ∀ other,
        0 < (state.decrementUnsatisfied index).unsatisfiedPreconditions other →
          0 < state.unsatisfiedPreconditions other := by
      intro other positive
      rw [unsatisfied_decrementUnsatisfied] at positive
      by_cases own : other = index
      · subst own
        rw [if_pos rfl] at positive
        omega
      · rwa [if_neg own] at positive
    unfold popBound
    refine Nat.add_le_add_left (Finset.sum_le_sum fun other _ => ?_) _
    split
    · rename_i positive
      rw [if_pos (stillPositive other positive)]
    · exact Nat.zero_le _

variable (costs state) in
theorem popBound_processEntry (entry : ℚ × RelaxedProposition) :
    (state.processEntry costs entry).popBound ≤ state.popBound := by
  unfold processEntry
  split
  · exact le_refl _
  · have folded : ∀ (indices : List task.Op) (state : Exploration task env),
        (indices.foldl (satisfyPrecondition costs entry.2) state).popBound ≤ state.popBound := by
      intro indices
      induction indices with
      | nil => exact fun state => le_refl _
      | cons index indices inductionHypothesis =>
        exact fun state => (inductionHypothesis _).trans (popBound_satisfyPrecondition _ _)
    exact folded _ { state with explored := Function.update state.explored entry.2 true }

/-- With enough fuel the exploration ends with an empty queue. -/
theorem explore_queue_empty (fuel : ℕ) (enough : state.popBound ≤ fuel) :
    env.queue.entries (explore costs fuel state).priorityQueue = 0 := by
  induction fuel generalizing state with
  | zero =>
    have none : (env.queue.entries state.priorityQueue).card = 0 := by
      unfold popBound at enough
      omega
    exact Multiset.card_eq_zero.mp none
  | succ fuel inductionHypothesis =>
    unfold explore
    cases popped : env.queue.pop state.priorityQueue with
    | none => exact env.queue.entries_of_pop_none _ popped
    | some top =>
      obtain ⟨entry, rest⟩ := top
      have entries := env.queue.entries_of_pop_some _ _ _ popped
      apply inductionHypothesis
      have smaller := popBound_processEntry costs { state with priorityQueue := rest } entry
      unfold popBound at smaller enough ⊢
      rw [entries, Multiset.card_cons] at enough
      simp only at smaller
      omega

end Steps

end Exploration

end CutPlan.Landmarks
