import CutPlan.Search.RedundantConstraints

/-! # Redundant constraints are implied

What an operator adds to its conditions, and the landmark heuristic to those of its linear effects, holds
wherever the operator is applicable, if the ids of comparisons are also the numbers of their conditions.
-/

namespace CutPlan.Search

open CutPlan.Lib CutPlan.Sas

namespace OperatorTask

variable (task : OperatorTask)

/-! ## The property -/

def LinearFacts (facts : List Condition) : Prop :=
  ∀ fact ∈ facts, ∀ number comparison, task.factToAxiom fact.var = some number →
    task.compAxioms[number]? = some comparison → task.IsLinearComparison comparison

/-- The state has the facts, and their comparisons are linear. -/
structure Requires (facts : List Condition) (state : GlobalState) : Prop where
  evaluated : task.Evaluated state
  satisfied : Condition.allHold facts state.values = true
  linear : task.LinearFacts facts

/-- A sum of two conditions for which the facts ask, which holds wherever the facts do. -/
structure IsImplied (facts : List Condition) (condition : LinearNumericCondition) : Prop where
  sum : ∃ first second, task.Required facts first ∧ task.Required facts second ∧
    condition = first.add second
  holds : ∀ state, task.Requires facts state → condition.HoldsIn task.regularVars state.numericVars

/-- Ids beyond the original ones stand for implied conditions. -/
def OnlyImplied (facts : List Condition) (table : ConditionTable) (originals ids : List ℤ) : Prop :=
  ∀ id ∈ ids, id ∈ originals ∨ ∃ number : ℕ, id = number ∧ ∃ condition,
    table.Names number [condition] ∧ task.IsImplied facts condition

/-- What is made of the condition of a linear effect is its sum with one for which the facts ask, and
holds wherever both do. -/
def OnlySums (facts : List Condition) (table : ConditionTable) (ids : List ℤ)
    (lnc : LinearNumericCondition) : Prop :=
  ∃ conditions, makeRedundantConditions table lnc ids = some conditions ∧ ∀ condition ∈ conditions,
    (∃ other, task.Required facts other ∧ condition =
      { lnc.add other with isStrictlyGreater := lnc.isStrictlyGreater || other.isStrictlyGreater }) ∧
    ∀ state, task.Requires facts state → lnc.HoldsIn task.regularVars state.numericVars →
      condition.HoldsIn task.regularVars state.numericVars

def conditionalEffects (op : GlobalOperator) : List GlobalEffect :=
  op.effects.filter fun effect => !effect.conditions.isEmpty

/-- The numeric effects of the kind that have a list of their own. -/
def effectsOfKind (kind : EffectKind) (effects : List AssignEffect) : List AssignEffect :=
  effects.filter fun effect => task.effectKind effect = kind &&
    (kind = .linear || !effect.conditions.isEmpty)

structure Implied (table : ConditionTable) (op : GlobalOperator) (action : ActionConditions) : Prop where
  numList : task.OnlyImplied op.preconditions table (task.buildPrecondition op.preconditions)
    action.numList
  effects : List.Forall₂ (fun effect ids =>
    task.OnlyImplied (op.preconditions ++ effect.conditions) table
      (task.buildPrecondition effect.conditions) ids)
    (conditionalEffects op) action.effNumConditions
  simple : List.Forall₂ (fun effect ids =>
    task.OnlyImplied (op.preconditions ++ effect.conditions) table
      (task.buildPrecondition effect.conditions) ids)
    (task.effectsOfKind .simple op.assignEffects) action.numEffNumConditions
  assignment : List.Forall₂ (fun effect ids =>
    task.OnlyImplied (op.preconditions ++ effect.conditions) table
      (task.buildPrecondition effect.conditions) ids)
    (task.effectsOfKind .assignment op.assignEffects) action.assignEffNumConditions
  linear : task.redundantConstraints = true → List.Forall₂ (fun effect ids =>
    ∀ lnc ∈ [conditionPlus (ProxyTask.linearEffect effect (task.artificialVariables effect.assVar)),
        conditionMinus (ProxyTask.linearEffect effect (task.artificialVariables effect.assVar))],
      task.OnlySums (op.preconditions ++ effect.conditions) table (extendedPreconditions action ids) lnc)
    (task.effectsOfKind .linear op.assignEffects) action.linearEffNumConditions

/-- All operators and rules are built, and what is added to them is implied. -/
def AllImplied : Prop :=
  ∃ table actions, task.buildActions = some (table, actions) ∧
    List.Forall₂ (task.Implied table) task.allOperators actions

/-! ## The condition -/

def allFacts (op : GlobalOperator) : List Condition :=
  op.preconditions ++ op.effects.flatMap GlobalEffect.conditions ++
    op.assignEffects.flatMap AssignEffect.conditions

/-- The precondition leaves nothing to combine the ids with. -/
def Apart (originals own : List ℤ) : Prop :=
  originals = [] ∨ own.length ≤ 1 ∧ ∀ x ∈ originals, ∀ y ∈ own, y = x

/-- No id of a comparison is used as the number of a condition. -/
structure CombinesNoIds (op : GlobalOperator) : Prop where
  effects : ∀ effect ∈ op.effects,
    Apart (task.buildPrecondition effect.conditions) (task.buildPrecondition op.preconditions)
  assignment : ∀ effect ∈ op.assignEffects, task.effectKind effect = .assignment →
    Apart (task.buildPrecondition effect.conditions) (task.buildPrecondition op.preconditions)
  linear : ∀ effect ∈ op.assignEffects, task.effectKind effect = .linear →
    task.buildPrecondition effect.conditions = [] ∧ task.buildPrecondition op.preconditions = []

/-- The condition on the task. -/
structure IdsFit : Prop where
  comparisons : ∀ comparison ∈ task.compAxioms, comparison.op ≠ .ue
  /-- Goals that have become numeric are not asked for elsewhere. -/
  goals : ∀ op ∈ task.allOperators, ∀ fact ∈ allFacts op, fact.val ≤ 0 →
    task.isNumericGoal fact.var = false
  /-- Nothing is added for effects that write to a list that is not theirs. -/
  targets : ∀ op ∈ task.allOperators, ∀ effect ∈ op.assignEffects,
    task.effectKind effect = .simple ∨ task.effectKind effect = .linear →
      (task.buildPrecondition effect.conditions).length ≤ 1 ∧
      Apart (task.buildPrecondition effect.conditions) (task.buildPrecondition op.preconditions)
  /-- The ids of comparisons are the numbers of their conditions, or not used as such. -/
  numbers : task.redundantConstraints = true →
    (∀ comparison ∈ task.compAxioms, comparison.op ≠ .eq) ∨
      ∀ op ∈ task.allOperators, task.CombinesNoIds op

variable {task}

/-! ## Required conditions hold -/

theorem IsRequired.holdsIn {facts : List Condition} {condition : LinearNumericCondition}
    (required : task.IsRequired facts condition) {state : GlobalState}
    (requires : task.Requires facts state) : condition.HoldsIn task.regularVars state.numericVars := by
  obtain ⟨fact, isFact, isTrue, number, comparison, isNumber, isAxiom, isOwn⟩ := required
  obtain ⟨found, isFound, affected⟩ := ConditionTask.factToAxiom_eq_some isNumber
  rw [isAxiom, Option.some.injEq] at isFound
  subst isFound
  have value : state.values fact.var = fact.val := by
    simpa using List.all_eq_true.mp requires.satisfied fact isFact
  have holds := requires.evaluated.comparison_holds (List.mem_of_getElem? isAxiom)
    (by rw [affected, value]; exact isTrue)
  exact ConditionTask.conditionsOf_holdsIn requires.evaluated
    (requires.linear fact isFact number comparison isNumber isAxiom) holds condition isOwn

theorem add_holdsIn {numericVars : ℕ → ℚ} {first second : LinearNumericCondition}
    (isFirst : 0 ≤ first.eval task.regularVars numericVars)
    (isSecond : 0 ≤ second.eval task.regularVars numericVars) :
    (first.add second).HoldsIn task.regularVars numericVars := by
  change 0 ≤ (first.add second).eval task.regularVars numericVars
  rw [ProxyTask.eval_add]
  exact add_nonneg isFirst isSecond

theorem Required.holdsIn {facts : List Condition} {condition : LinearNumericCondition}
    (required : task.Required facts condition) {state : GlobalState}
    (requires : task.Requires facts state) : condition.HoldsIn task.regularVars state.numericVars := by
  induction required with
  | comparison isRequired => exact isRequired.holdsIn requires
  | sum _ _ isFirst isSecond => exact add_holdsIn isFirst.nonneg isSecond.nonneg

theorem isImplied_of_sum {facts : List Condition} {first second : LinearNumericCondition}
    (isFirst : task.Required facts first) (isSecond : task.Required facts second) :
    task.IsImplied facts (first.add second) where
  sum := ⟨first, second, isFirst, isSecond, rfl⟩
  holds := fun _ requires =>
    add_holdsIn (isFirst.holdsIn requires).nonneg (isSecond.holdsIn requires).nonneg

/-- The sum with a condition of a linear effect is strict if one of them is. -/
theorem addStrict_holdsIn {numericVars : ℕ → ℚ} {lnc other : LinearNumericCondition}
    (isLnc : lnc.HoldsIn task.regularVars numericVars) (isOther : other.HoldsIn task.regularVars numericVars) :
    LinearNumericCondition.HoldsIn task.regularVars numericVars
      { lnc.add other with isStrictlyGreater := lnc.isStrictlyGreater || other.isStrictlyGreater } := by
  have value : LinearNumericCondition.eval task.regularVars
      { lnc.add other with isStrictlyGreater := lnc.isStrictlyGreater || other.isStrictlyGreater } numericVars =
        lnc.eval task.regularVars numericVars + other.eval task.regularVars numericVars :=
    ProxyTask.eval_add lnc other numericVars
  unfold LinearNumericCondition.HoldsIn
  rw [value]
  split
  · rename_i strict
    rw [Bool.or_eq_true] at strict
    cases strict with
    | inl strictLnc =>
      rw [LinearNumericCondition.HoldsIn, if_pos strictLnc] at isLnc
      exact add_pos_of_pos_of_nonneg isLnc isOther.nonneg
    | inr strictOther =>
      rw [LinearNumericCondition.HoldsIn, if_pos strictOther] at isOther
      exact add_pos_of_nonneg_of_pos isLnc.nonneg isOther
  · exact add_nonneg isLnc.nonneg isOther.nonneg

theorem makeRedundantConditions_onlySums {facts : List Condition} {table : ConditionTable}
    {ids : List ℤ} (usable : ∀ id ∈ ids, task.IsUsable facts table id) (lnc : LinearNumericCondition) :
    task.OnlySums facts table ids lnc := by
  unfold OnlySums makeRedundantConditions
  induction ids with
  | nil => exact ⟨[], rfl, fun condition member => by cases member⟩
  | cons id ids inductionHypothesis =>
    rw [List.forall_mem_cons] at usable
    obtain ⟨other, isOther, required⟩ := usable.1.condition?
    obtain ⟨conditions, isConditions, sums⟩ := inductionHypothesis usable.2
    refine ⟨_ :: conditions, by simp [List.mapM_cons, isOther, isConditions]; rfl, ?_⟩
    rw [List.forall_mem_cons]
    refine ⟨⟨⟨other, required, rfl⟩, fun state requires holds => ?_⟩, sums⟩
    exact addStrict_holdsIn holds (required.holdsIn requires)

/-! ## Ids of comparisons -/

theorem conditionsOf_length {comparison : ComparisonAxiom} (known : comparison.op ≠ .ue)
    (inequality : comparison.op ≠ .eq) :
    ∃ condition, task.conditionsOf comparison = [condition] := by
  unfold ConditionTask.conditionsOf
  cases op : comparison.op with
  | eq => exact absurd op inequality
  | ue => exact absurd op known
  | lt | le | ge | gt => exact ⟨_, rfl⟩

/-- Inequalities have the condition with their own number. -/
theorem tableOf_condition {comparisons : List ComparisonAxiom}
    (known : ∀ comparison ∈ comparisons, comparison.op ≠ .ue)
    (inequalities : ∀ comparison ∈ comparisons, comparison.op ≠ .eq) :
    (task.tableOf comparisons).conditions.length = comparisons.length ∧
      ∀ number comparison, comparisons[number]? = some comparison →
        (task.tableOf comparisons).condition number ∈ task.conditionsOf comparison := by
  induction comparisons using List.reverseRecOn with
  | nil => exact ⟨rfl, fun number comparison isNumber => by cases isNumber⟩
  | append_singleton comparisons last inductionHypothesis =>
    rw [List.forall_mem_append] at known inequalities
    obtain ⟨sameLength, same⟩ := inductionHypothesis known.1 inequalities.1
    obtain ⟨condition, isCondition⟩ := @conditionsOf_length task last
      (known.2 last (List.mem_singleton_self last)) (inequalities.2 last (List.mem_singleton_self last))
    have extension := ConditionTable.addComparison_extends (task.tableOf comparisons) (task.conditionsOf last)
    rw [ConditionTask.tableOf_concat]
    refine ⟨by simp [ConditionTable.addComparison, isCondition, sameLength], ?_⟩
    intro number comparison isNumber
    rcases Nat.lt_trichotomy number comparisons.length with lt | rfl | gt
    · rw [List.getElem?_append_left lt] at isNumber
      rw [extension.condition (sameLength ▸ lt)]
      exact same number comparison isNumber
    · rw [List.getElem?_concat_length, Option.some.injEq] at isNumber
      rw [← isNumber, ← sameLength]
      simp [ConditionTable.condition, ConditionTable.addComparison, isCondition,
        List.getD_eq_getElem?_getD]
    · rw [List.getElem?_eq_none (by simp; omega)] at isNumber
      cases isNumber

section Ids

variable {facts : List Condition} {table : ConditionTable} {id : ℤ}

theorem exists_comparison (noGoals : ∀ fact ∈ facts, fact.val ≤ 0 → task.isNumericGoal fact.var = false)
    (member : id ∈ task.buildPrecondition facts) :
    ∃ number : ℕ, id = number ∧ ∃ comparison, task.compAxioms[number]? = some comparison ∧
      ∀ condition ∈ task.conditionsOf comparison, task.Required facts condition := by
  obtain ⟨fact, isFact, isNumeric, isTrue, isId⟩ := mem_buildPrecondition.mp member
  unfold factToAxiomMap at isNumeric isId
  rw [noGoals fact isFact isTrue] at isNumeric isId
  cases isNumber : task.factToAxiom fact.var with
  | none => simp [isNumber] at isNumeric
  | some number =>
    simp only [isNumber, Bool.false_eq_true, if_false] at isId
    obtain ⟨comparison, isAxiom, -⟩ := ConditionTask.factToAxiom_eq_some isNumber
    exact ⟨number, isId.symm, comparison, isAxiom, fun condition isOwn =>
      .comparison ⟨fact, isFact, isTrue, number, comparison, isNumber, isAxiom, isOwn⟩⟩

theorem looksUp_of_mem (noGoals : ∀ fact ∈ facts, fact.val ≤ 0 → task.isNumericGoal fact.var = false)
    (grows : task.buildNumericConditions.Grows table) (member : id ∈ task.buildPrecondition facts) :
    task.LooksUp facts table id := by
  obtain ⟨number, isId, comparison, isAxiom, required⟩ := exists_comparison noGoals member
  exact ⟨number, isId, _, grows.names (ConditionTask.buildNumericConditions_names isAxiom), required⟩

theorem isUsable_of_mem (noGoals : ∀ fact ∈ facts, fact.val ≤ 0 → task.isNumericGoal fact.var = false)
    (known : ∀ comparison ∈ task.compAxioms, comparison.op ≠ .ue)
    (inequalities : ∀ comparison ∈ task.compAxioms, comparison.op ≠ .eq)
    (grows : task.buildNumericConditions.Grows table) (member : id ∈ task.buildPrecondition facts) :
    task.IsUsable facts table id := by
  obtain ⟨number, isId, comparison, isAxiom, required⟩ := exists_comparison noGoals member
  obtain ⟨sameLength, same⟩ := @tableOf_condition task task.compAxioms known inequalities
  have lt : number < task.buildNumericConditions.conditions.length := by
    change number < (task.tableOf task.compAxioms).conditions.length
    rw [sameLength]
    exact (List.getElem?_eq_some_iff.mp isAxiom).1
  refine ⟨number, isId, lt.trans_le grows.length_le, ?_⟩
  rw [grows.condition lt]
  exact required _ (same number comparison isAxiom)

theorem balanced_of_grows (known : ∀ comparison ∈ task.compAxioms, comparison.op ≠ .ue)
    (inequalities : ∀ comparison ∈ task.compAxioms, comparison.op ≠ .eq)
    (grows : task.buildNumericConditions.Grows table) :
    table.conditions.length = table.ids.length := by
  have sameLength := (@tableOf_condition task task.compAxioms known inequalities).1
  have idsLength := @ConditionTask.tableOf_ids_length task.toConditionTask task.compAxioms
  have balance := grows.balance
  unfold ConditionTask.buildNumericConditions at balance
  omega

end Ids

/-! ## Building an operator -/

/-- Ids beyond the original ones have been added. -/
def OnlyAdded (task : OperatorTask) (facts : List Condition) (table : ConditionTable)
    (originals ids : List ℤ) : Prop :=
  ∀ id ∈ ids, id ∈ originals ∨ task.IsAdded facts table id

theorem OnlyAdded.grow {facts : List Condition} {before after : ConditionTable} {originals ids : List ℤ}
    (onlyAdded : task.OnlyAdded facts before originals ids) (grows : before.Grows after) :
    task.OnlyAdded facts after originals ids := fun id member =>
  (onlyAdded id member).imp_right fun added => added.extend (List.Subset.refl _) grows

/-- What has been built of an operator from some of its effects. -/
structure PartlyBuilt (task : OperatorTask) (op : GlobalOperator) (effects : List GlobalEffect)
    (assignEffects : List AssignEffect) (table : ConditionTable) (action : ActionConditions) : Prop where
  grows : task.buildNumericConditions.Grows table
  numList : task.OnlyAdded op.preconditions table (task.buildPrecondition op.preconditions) action.numList
  single : (task.buildPrecondition op.preconditions).length ≤ 1 →
    action.numList = task.buildPrecondition op.preconditions
  effects : List.Forall₂ (fun effect ids => task.OnlyAdded (op.preconditions ++ effect.conditions) table
    (task.buildPrecondition effect.conditions) ids)
    (effects.filter fun effect => !effect.conditions.isEmpty) action.effNumConditions
  simple : action.numEffNumConditions = (task.effectsOfKind .simple assignEffects).map fun effect =>
    task.buildPrecondition effect.conditions
  assignment : List.Forall₂ (fun effect ids => task.OnlyAdded (op.preconditions ++ effect.conditions) table
    (task.buildPrecondition effect.conditions) ids)
    (task.effectsOfKind .assignment assignEffects) action.assignEffNumConditions
  linear : action.linearEffNumConditions = (task.effectsOfKind .linear assignEffects).map fun effect =>
    task.buildPrecondition effect.conditions

section Operator

variable {op : GlobalOperator} {table : ConditionTable} {action : ActionConditions}

theorem PartlyBuilt.grow {effects : List GlobalEffect} {assignEffects : List AssignEffect}
    (built : task.PartlyBuilt op effects assignEffects table action) {after : ConditionTable}
    (grows : table.Grows after) : task.PartlyBuilt op effects assignEffects after action where
  grows := built.grows.trans grows
  numList := built.numList.grow grows
  single := built.single
  effects := built.effects.imp fun _ _ onlyAdded => onlyAdded.grow grows
  simple := built.simple
  assignment := built.assignment.imp fun _ _ onlyAdded => onlyAdded.grow grows
  linear := built.linear

theorem mem_allFacts_of_effect {effect : GlobalEffect} (isEffect : effect ∈ op.effects) :
    op.preconditions ++ effect.conditions ⊆ allFacts op := by
  intro fact member
  unfold allFacts
  cases List.mem_append.mp member with
  | inl isPre => exact List.mem_append_left _ (List.mem_append_left _ isPre)
  | inr isCondition =>
    exact List.mem_append_left _ (List.mem_append_right _
      (List.mem_flatMap.mpr ⟨effect, isEffect, isCondition⟩))

theorem mem_allFacts_of_assignEffect {effect : AssignEffect} (isEffect : effect ∈ op.assignEffects) :
    op.preconditions ++ effect.conditions ⊆ allFacts op := by
  intro fact member
  unfold allFacts
  cases List.mem_append.mp member with
  | inl isPre => exact List.mem_append_left _ (List.mem_append_left _ isPre)
  | inr isCondition => exact List.mem_append_right _ (List.mem_flatMap.mpr ⟨effect, isEffect, isCondition⟩)

theorem OnlyAdded.onlyImplied {facts : List Condition} {originals ids : List ℤ}
    (onlyAdded : task.OnlyAdded facts table originals ids) :
    task.OnlyImplied facts table originals ids := by
  intro id member
  refine (onlyAdded id member).imp_right fun added => ?_
  obtain ⟨number, isNumber, first, second, isFirst, isSecond, names, -⟩ := added
  exact ⟨number, isNumber, _, names, isImplied_of_sum isFirst isSecond⟩

theorem setAt_getElem? (lists : List (List ℤ)) (index : ℕ) : setAt lists index lists[index]? = lists := by
  unfold setAt
  cases isElement : lists[index]? with
  | none => rfl
  | some ids =>
    obtain ⟨lt, rfl⟩ := List.getElem?_eq_some_iff.mp isElement
    exact List.set_getElem_self lt

theorem effectsOfKind_concat (kind : EffectKind) (effects : List AssignEffect) (effect : AssignEffect) :
    task.effectsOfKind kind (effects ++ [effect]) = task.effectsOfKind kind effects ++
      if task.effectKind effect = kind ∧ (kind = .linear ∨ effect.conditions.isEmpty = false) then [effect]
      else [] := by
  unfold effectsOfKind
  rw [List.filter_append]
  congr 1
  by_cases isOwn : task.effectKind effect = kind <;> by_cases isLinear : kind = .linear <;>
    cases unconditional : effect.conditions.isEmpty <;> simp [List.filter_cons, isOwn, isLinear, unconditional]

variable (fit : task.IdsFit) (isOperator : op ∈ task.allOperators)

include fit isOperator

theorem IdsFit.noGoals {facts : List Condition} (subset : facts ⊆ allFacts op) :
    ∀ fact ∈ facts, fact.val ≤ 0 → task.isNumericGoal fact.var = false :=
  fun fact isFact => fit.goals op isOperator fact (subset isFact)

theorem IdsFit.looksUp {conditions : List Condition} (subset : op.preconditions ++ conditions ⊆ allFacts op)
    (grows : task.buildNumericConditions.Grows table) :
    ∀ id ∈ task.buildPrecondition conditions, task.LooksUp (op.preconditions ++ conditions) table id := by
  have own : conditions ⊆ op.preconditions ++ conditions := List.subset_append_right _ _
  intro id member
  exact (looksUp_of_mem (fit.noGoals isOperator (List.Subset.trans own subset)) grows member).extend own (.refl table)

/-- What is combined can be used as numbers of conditions. -/
theorem IdsFit.usable {conditions : List Condition} (subset : op.preconditions ++ conditions ⊆ allFacts op)
    {effects : List GlobalEffect} {assignEffects : List AssignEffect}
    (built : task.PartlyBuilt op effects assignEffects table action)
    (apart : task.redundantConstraints = true →
      (∀ comparison ∈ task.compAxioms, comparison.op ≠ .eq) ∨
        Apart (task.buildPrecondition conditions) (task.buildPrecondition op.preconditions)) :
    task.redundantConstraints = true → ∀ x ∈ task.buildPrecondition conditions, ∀ y ∈ action.numList,
      y ≠ x → task.IsUsable (op.preconditions ++ conditions) table x ∧
        task.IsUsable (op.preconditions ++ conditions) table y := by
  have pre : op.preconditions ⊆ op.preconditions ++ conditions := List.subset_append_left _ _
  have own : conditions ⊆ op.preconditions ++ conditions := List.subset_append_right _ _
  intro redundant x isX y isY different
  obtain inequalities | none | ⟨single, same⟩ := apart redundant
  · have balanced := balanced_of_grows fit.comparisons inequalities built.grows
    constructor
    · exact (isUsable_of_mem (fit.noGoals isOperator (List.Subset.trans own subset)) fit.comparisons inequalities
        built.grows isX).extend own (.refl table)
    · cases built.numList y isY with
      | inl isOriginal =>
        exact (isUsable_of_mem (fit.noGoals isOperator (List.Subset.trans pre subset)) fit.comparisons inequalities
          built.grows isOriginal).extend pre (.refl table)
      | inr added => exact (added.isUsable balanced).extend pre (.refl table)
  · rw [none] at isX
    cases isX
  · rw [built.single single] at isY
    exact absurd (same x isX y isY) different

/-- The sums of an effect, in a list of its own. -/
theorem IdsFit.ownSums {conditions : List Condition} (subset : op.preconditions ++ conditions ⊆ allFacts op)
    {effects : List GlobalEffect} {assignEffects : List AssignEffect}
    (built : task.PartlyBuilt op effects assignEffects table action)
    (apart : task.redundantConstraints = true →
      (∀ comparison ∈ task.compAxioms, comparison.op ≠ .eq) ∨
        Apart (task.buildPrecondition conditions) (task.buildPrecondition op.preconditions)) :
    task.AddsSums (op.preconditions ++ conditions) table (task.buildPrecondition conditions)
      (task.buildRedundantConstraints table (task.buildPrecondition conditions) action.numList
        (some (task.buildPrecondition conditions))) := by
  cases redundant : task.redundantConstraints with
  | true =>
    exact buildRedundantConstraints_addsSums (fit.looksUp isOperator subset built.grows)
      (fit.usable isOperator subset built apart redundant) _
  | false =>
    unfold buildRedundantConstraints
    rw [redundant]
    exact ⟨table, _, rfl, .refl table, fun id member => .inl member⟩

/-- Nothing is added for an effect that writes to another list. -/
theorem IdsFit.noSums {conditions : List Condition} (subset : op.preconditions ++ conditions ⊆ allFacts op)
    {effects : List GlobalEffect} {assignEffects : List AssignEffect}
    (built : task.PartlyBuilt op effects assignEffects table action)
    (single : (task.buildPrecondition conditions).length ≤ 1)
    (apart : Apart (task.buildPrecondition conditions) (task.buildPrecondition op.preconditions))
    (target : Option (List ℤ)) :
    task.buildRedundantConstraints table (task.buildPrecondition conditions) action.numList target =
      some (table, target) := by
  apply buildRedundantConstraints_of_single (fit.looksUp isOperator subset built.grows) single
  intro x isX y isY
  obtain none | ⟨ownSingle, same⟩ := apart
  · rw [none] at isX
    cases isX
  · rw [built.single ownSingle] at isY
    exact same x isX y isY

theorem IdsFit.addEffect {done : List GlobalEffect} {effect : GlobalEffect} (isEffect : effect ∈ op.effects)
    (built : task.PartlyBuilt op done [] table action) :
    ∃ afterTable afterAction, task.addEffect (table, action) effect = some (afterTable, afterAction) ∧
      table.Grows afterTable ∧ task.PartlyBuilt op (done ++ [effect]) [] afterTable afterAction := by
  unfold OperatorTask.addEffect
  by_cases unconditional : effect.conditions.isEmpty = true
  · refine ⟨table, action, by simp [unconditional], .refl table, { built with effects := ?_ }⟩
    rw [List.filter_append, List.filter_cons_of_neg (by simp [unconditional]), List.filter_nil,
      List.append_nil]
    exact built.effects
  · have apart : task.redundantConstraints = true →
        (∀ comparison ∈ task.compAxioms, comparison.op ≠ .eq) ∨
          Apart (task.buildPrecondition effect.conditions) (task.buildPrecondition op.preconditions) :=
      fun redundant => (fit.numbers redundant).imp_right fun combines =>
        (combines op isOperator).effects effect isEffect
    obtain ⟨final, finalIds, isFinal, grows, onlyAdded⟩ :=
      fit.ownSums isOperator (mem_allFacts_of_effect isEffect) built apart
    refine ⟨final, { action with effNumConditions := action.effNumConditions ++ [finalIds] },
      by simp [unconditional, isFinal], grows, { built.grow grows with effects := ?_ }⟩
    rw [List.filter_append, List.filter_cons_of_pos (by simp [unconditional]), List.filter_nil]
    exact List.rel_append (built.grow grows).effects (.cons onlyAdded .nil)

theorem IdsFit.addEffects (effects : List GlobalEffect) (subset : ∀ effect ∈ effects, effect ∈ op.effects)
    (built : task.PartlyBuilt op [] [] table action) :
    ∃ afterTable afterAction, effects.foldlM task.addEffect (table, action) = some (afterTable, afterAction) ∧
      table.Grows afterTable ∧ task.PartlyBuilt op effects [] afterTable afterAction := by
  induction effects using List.reverseRecOn with
  | nil => exact ⟨table, action, rfl, .refl table, built⟩
  | append_singleton effects effect inductionHypothesis =>
    obtain ⟨middle, middleAction, isMiddle, growsFirst, builtFirst⟩ :=
      inductionHypothesis fun other member => subset other (List.mem_append_left _ member)
    obtain ⟨final, finalAction, isFinal, growsLast, builtLast⟩ := fit.addEffect isOperator
      (subset effect (List.mem_append_right _ (List.mem_singleton_self effect))) builtFirst
    refine ⟨final, finalAction, ?_, growsFirst.trans growsLast, builtLast⟩
    rw [List.foldlM_append, isMiddle]
    simp [isFinal]

theorem IdsFit.addNumericEffect {effects : List GlobalEffect} {done : List AssignEffect}
    {effect : AssignEffect} (isEffect : effect ∈ op.assignEffects)
    (built : task.PartlyBuilt op effects done table action) :
    ∃ afterTable afterAction,
      task.addNumericEffect (table, action) effect = some (afterTable, afterAction) ∧
      table.Grows afterTable ∧ task.PartlyBuilt op effects (done ++ [effect]) afterTable afterAction := by
  have subset := mem_allFacts_of_assignEffect isEffect
  unfold OperatorTask.addNumericEffect
  cases kind : task.effectKind effect with
  | skipped =>
    refine ⟨table, action, by simp [kind], .refl table, { built with
      simple := ?_, assignment := ?_, linear := ?_ }⟩
    · simpa [effectsOfKind_concat, kind] using built.simple
    · simpa [effectsOfKind_concat, kind] using built.assignment
    · simpa [effectsOfKind_concat, kind] using built.linear
  | simple =>
    cases unconditional : effect.conditions.isEmpty with
    | true =>
      refine ⟨table, action, by simp [kind, unconditional], .refl table, { built with
        simple := ?_, assignment := ?_, linear := ?_ }⟩
      · simpa [effectsOfKind_concat, kind, unconditional] using built.simple
      · simpa [effectsOfKind_concat, kind] using built.assignment
      · simpa [effectsOfKind_concat, kind] using built.linear
    | false =>
      obtain ⟨single, apart⟩ := fit.targets op isOperator effect isEffect (.inl kind)
      have noSums := fit.noSums isOperator subset built single apart
      refine ⟨table, { action with
        numEffNumConditions := action.numEffNumConditions ++ [task.buildPrecondition effect.conditions] },
        by simp [kind, unconditional, noSums, setAt_getElem?], .refl table, { built with
          simple := ?_, assignment := ?_, linear := ?_ }⟩
      · simp [effectsOfKind_concat, kind, unconditional, built.simple]
      · simpa [effectsOfKind_concat, kind] using built.assignment
      · simpa [effectsOfKind_concat, kind] using built.linear
  | assignment =>
    cases unconditional : effect.conditions.isEmpty with
    | true =>
      refine ⟨table, action, by simp [kind, unconditional], .refl table, { built with
        simple := ?_, assignment := ?_, linear := ?_ }⟩
      · simpa [effectsOfKind_concat, kind] using built.simple
      · simpa [effectsOfKind_concat, kind, unconditional] using built.assignment
      · simpa [effectsOfKind_concat, kind] using built.linear
    | false =>
      have apart : task.redundantConstraints = true →
          (∀ comparison ∈ task.compAxioms, comparison.op ≠ .eq) ∨
            Apart (task.buildPrecondition effect.conditions) (task.buildPrecondition op.preconditions) :=
        fun redundant => (fit.numbers redundant).imp_right fun combines =>
          (combines op isOperator).assignment effect isEffect kind
      obtain ⟨final, finalIds, isFinal, grows, onlyAdded⟩ := fit.ownSums isOperator subset built apart
      have grown := built.grow grows
      refine ⟨final, { action with
        assignEffNumConditions := action.assignEffNumConditions ++ [finalIds] },
        by simp [kind, unconditional, isFinal], grows, { grown with
          simple := ?_, assignment := ?_, linear := ?_ }⟩
      · simpa [effectsOfKind_concat, kind] using grown.simple
      · rw [effectsOfKind_concat, if_pos ⟨kind, .inr unconditional⟩]
        exact List.rel_append grown.assignment (.cons onlyAdded .nil)
      · simpa [effectsOfKind_concat, kind] using grown.linear
  | linear =>
    obtain ⟨single, apart⟩ := fit.targets op isOperator effect isEffect (.inr kind)
    have noSums := fit.noSums isOperator subset built single apart
    refine ⟨table, { action with
      linearEffNumConditions := action.linearEffNumConditions ++
        [task.buildPrecondition effect.conditions] },
      by simp [kind, noSums, setAt_getElem?], .refl table, { built with
          simple := ?_, assignment := ?_, linear := ?_ }⟩
    · simpa [effectsOfKind_concat, kind] using built.simple
    · simpa [effectsOfKind_concat, kind] using built.assignment
    · simp [effectsOfKind_concat, kind, built.linear]

theorem IdsFit.addNumericEffects {effects : List GlobalEffect} (assignEffects : List AssignEffect)
    (subset : ∀ effect ∈ assignEffects, effect ∈ op.assignEffects)
    (built : task.PartlyBuilt op effects [] table action) :
    ∃ afterTable afterAction,
      assignEffects.foldlM task.addNumericEffect (table, action) = some (afterTable, afterAction) ∧
      table.Grows afterTable ∧ task.PartlyBuilt op effects assignEffects afterTable afterAction := by
  induction assignEffects using List.reverseRecOn with
  | nil => exact ⟨table, action, rfl, .refl table, built⟩
  | append_singleton assignEffects effect inductionHypothesis =>
    obtain ⟨middle, middleAction, isMiddle, growsFirst, builtFirst⟩ :=
      inductionHypothesis fun other member => subset other (List.mem_append_left _ member)
    obtain ⟨final, finalAction, isFinal, growsLast, builtLast⟩ := fit.addNumericEffect isOperator
      (subset effect (List.mem_append_right _ (List.mem_singleton_self effect))) builtFirst
    refine ⟨final, finalAction, ?_, growsFirst.trans growsLast, builtLast⟩
    rw [List.foldlM_append, isMiddle]
    simp [isFinal]

/-- Before the effects: the preconditions with the sums of two of them. -/
theorem IdsFit.preconditions (grows : task.buildNumericConditions.Grows table) :
    ∃ afterTable numList,
      (if task.redundantConstraints then
        task.buildWithin table (task.buildPrecondition op.preconditions)
          (some (task.buildPrecondition op.preconditions))
      else some (table, some (task.buildPrecondition op.preconditions))) = some (afterTable, some numList) ∧
      table.Grows afterTable ∧ task.PartlyBuilt op [] [] afterTable
        { numList := numList
          effNumConditions := []
          numEffNumConditions := []
          assignEffNumConditions := []
          linearEffNumConditions := [] } := by
  have subset : op.preconditions ⊆ allFacts op := fun fact isFact =>
    List.mem_append_left _ (List.mem_append_left _ isFact)
  have looksUp : ∀ id ∈ task.buildPrecondition op.preconditions,
      task.LooksUp op.preconditions table id := fun id member =>
    looksUp_of_mem (fit.noGoals isOperator subset) grows member
  split
  · obtain ⟨final, finalIds, isFinal, growsFinal, onlyAdded⟩ :=
      buildWithin_addsSums looksUp (task.buildPrecondition op.preconditions)
    refine ⟨final, finalIds, isFinal, growsFinal, grows.trans growsFinal, onlyAdded, fun single => ?_,
      .nil, rfl, .nil, rfl⟩
    -- a single comparison has no other one to be added to
    obtain ⟨lists, isLists, sameLength, -⟩ := mapM_numbers? looksUp
    have noPairs : crossPairs lists = [] := by
      match lists with
      | [] => rfl
      | [numbers] => simp [crossPairs]
      | _ :: _ :: _ =>
        simp only [List.length_cons] at sameLength
        omega
    simp only [buildWithin, isLists, noPairs, addAll, Option.bind_eq_bind, Option.bind_some,
      Option.some.injEq, Prod.mk.injEq] at isFinal
    exact isFinal.2.symm
  · exact ⟨table, _, rfl, .refl table, grows, fun id member => .inl member, fun _ => rfl, .nil, rfl, .nil,
      rfl⟩

theorem IdsFit.buildConditions (grows : task.buildNumericConditions.Grows table) :
    ∃ afterTable afterAction, task.buildConditions table op = some (afterTable, afterAction) ∧
      table.Grows afterTable ∧ task.PartlyBuilt op op.effects op.assignEffects afterTable afterAction := by
  obtain ⟨first, numList, isFirst, growsFirst, builtFirst⟩ := fit.preconditions isOperator grows
  obtain ⟨second, secondAction, isSecond, growsSecond, builtSecond⟩ :=
    fit.addEffects isOperator op.effects (fun _ member => member) builtFirst
  obtain ⟨third, thirdAction, isThird, growsThird, builtThird⟩ :=
    fit.addNumericEffects isOperator op.assignEffects (fun _ member => member) builtSecond
  refine ⟨third, thirdAction, ?_, (growsFirst.trans growsSecond).trans growsThird, builtThird⟩
  unfold OperatorTask.buildConditions
  split at isFirst
  · rename_i redundant
    simp only [redundant, if_true, isFirst, Option.bind_eq_bind, Option.bind_some, Option.getD_some,
      isSecond, isThird]
  · rename_i notRedundant
    cases isFirst
    simp only [notRedundant, if_false, Option.bind_eq_bind, Option.bind_some, Option.getD_some,
      isSecond, isThird, Bool.false_eq_true]

theorem IdsFit.linearSums (built : task.PartlyBuilt op op.effects op.assignEffects table action)
    (redundant : task.redundantConstraints = true) {effect : AssignEffect}
    (isEffect : effect ∈ op.assignEffects) (isLinear : task.effectKind effect = .linear)
    (lnc : LinearNumericCondition) :
    task.OnlySums (op.preconditions ++ effect.conditions) table
      (extendedPreconditions action (task.buildPrecondition effect.conditions)) lnc := by
  have pre : op.preconditions ⊆ op.preconditions ++ effect.conditions := List.subset_append_left _ _
  have own : effect.conditions ⊆ op.preconditions ++ effect.conditions := List.subset_append_right _ _
  have subset := mem_allFacts_of_assignEffect isEffect
  apply makeRedundantConditions_onlySums
  intro id member
  cases fit.numbers redundant with
  | inl inequalities =>
    have balanced := balanced_of_grows fit.comparisons inequalities built.grows
    cases mem_extendedPreconditions.mp member with
    | inl inNumList =>
      cases built.numList id inNumList with
      | inl isOriginal =>
        exact (isUsable_of_mem (fit.noGoals isOperator (List.Subset.trans pre subset)) fit.comparisons
          inequalities built.grows isOriginal).extend pre (.refl table)
      | inr added => exact (added.isUsable balanced).extend pre (.refl table)
    | inr inEffect =>
      exact (isUsable_of_mem (fit.noGoals isOperator (List.Subset.trans own subset)) fit.comparisons
        inequalities built.grows inEffect).extend own (.refl table)
  | inr combines =>
    obtain ⟨noOwn, noPre⟩ := (combines op isOperator).linear effect isEffect isLinear
    have noNumList : action.numList = [] := by
      rw [built.single (by rw [noPre]; exact Nat.zero_le 1), noPre]
    rw [mem_extendedPreconditions, noNumList, noOwn] at member
    cases member with
    | inl inNumList => cases inNumList
    | inr inEffect => cases inEffect

theorem IdsFit.implied (built : task.PartlyBuilt op op.effects op.assignEffects table action) :
    task.Implied table op action where
  numList := built.numList.onlyImplied
  effects := built.effects.imp fun _ _ onlyAdded => onlyAdded.onlyImplied
  simple := by
    rw [built.simple, List.forall₂_map_right_iff, List.forall₂_same]
    exact fun effect _ id member => .inl member
  assignment := built.assignment.imp fun _ _ onlyAdded => onlyAdded.onlyImplied
  linear := by
    intro redundant
    rw [built.linear, List.forall₂_map_right_iff, List.forall₂_same]
    intro effect member lnc _
    obtain ⟨isEffect, isKind⟩ := List.mem_filter.mp member
    simp only [Bool.and_eq_true, decide_eq_true_eq] at isKind
    exact fit.linearSums isOperator built redundant isEffect isKind.1 lnc

end Operator

/-! ## Building all operators -/

theorem IdsFit.buildAll (fit : task.IdsFit) {ops : List GlobalOperator}
    (areOperators : ∀ op ∈ ops, op ∈ task.allOperators) {table : ConditionTable}
    (grows : task.buildNumericConditions.Grows table) :
    ∃ final actions, task.buildAll table ops = some (final, actions) ∧ table.Grows final ∧
      List.Forall₂ (fun op action => task.PartlyBuilt op op.effects op.assignEffects final action)
        ops actions := by
  induction ops generalizing table with
  | nil => exact ⟨table, [], rfl, .refl table, .nil⟩
  | cons op ops inductionHypothesis =>
    rw [List.forall_mem_cons] at areOperators
    obtain ⟨middle, action, isMiddle, growsFirst, built⟩ := fit.buildConditions areOperators.1 grows
    obtain ⟨final, actions, isFinal, growsRest, builtRest⟩ :=
      inductionHypothesis areOperators.2 (grows.trans growsFirst)
    refine ⟨final, action :: actions, ?_, growsFirst.trans growsRest, .cons (built.grow growsRest) builtRest⟩
    simp [OperatorTask.buildAll, isMiddle, isFinal]

/-- If the ids fit, all operators are built, and all redundant constraints are implied. -/
theorem redundantConstraints_implied (task : OperatorTask) (fit : task.IdsFit) : task.AllImplied := by
  obtain ⟨table, actions, isBuilt, -, built⟩ := fit.buildAll (fun _ member => member)
    (ConditionTask.buildNumericGoals_grows task.toConditionTask)
  refine ⟨table, actions, isBuilt, ?_⟩
  have implied : ∀ op action, op ∈ task.allOperators →
      task.PartlyBuilt op op.effects op.assignEffects table action → task.Implied table op action :=
    fun _ _ isOperator partlyBuilt => fit.implied isOperator partlyBuilt
  rw [List.forall₂_iff_get] at built ⊢
  refine ⟨built.1, fun index first second => ?_⟩
  exact implied _ _ (List.get_mem _ _) (built.2 index first second)

end OperatorTask

/-! ## A small task -/

/-- An operator that needs the third variable to be at least 2 and has an effect if the first one is at
least 1. -/
def levelOperator : GlobalOperator where
  preconditions := [{ var := 12, val := 0 }]
  effects := [{ var := 0, val := 0, conditions := [{ var := 11, val := 0 }] }]
  assignEffects := []
  name := "level"
  cost := 1

def levelComparisons : List ComparisonAxiom :=
  [{ affectedVariable := 11, op := .ge, varLhs := 0, varRhs := 3 },
    { affectedVariable := 12, op := .ge, varLhs := 2, varRhs := 4 }]

/-- The first two variables are equal. -/
def levelEquality : ComparisonAxiom :=
  { affectedVariable := 10, op := .eq, varLhs := 0, varRhs := 1 }

def levelTask (compAxioms : List ComparisonAxiom) : OperatorTask where
  numericVarTypes := fun var => if var < 3 then .regular else .constant
  assAxioms := []
  assAxioms_derived := by simp
  numericVarCount := 5
  initialStateNumeric := fun var => if var = 3 then 1 else if var = 4 then 2 else 0
  regular_lt_count := by
    intro var regular
    by_contra beyond
    have notFirst : ¬ var < 3 := by omega
    simp [notFirst] at regular
  compAxioms := compAxioms
  logicAxioms := []
  defaultAxiomValues := fun _ => 1
  goals := []
  redundantConstraints := true
  logicAxioms_derive := by simp
  operators := [levelOperator]
  options := { precision := 1 / 1000000, separateConstantAssignment := false }

theorem levelTask_idsFit : (levelTask levelComparisons).IdsFit where
  comparisons := by
    show ∀ comparison ∈ levelComparisons, comparison.op ≠ .ue
    decide
  goals := fun _ _ _ _ _ => rfl
  targets := by
    intro op isOperator effect isEffect
    rw [List.mem_singleton.mp isOperator] at isEffect
    cases isEffect
  numbers := by
    intro _
    left
    show ∀ comparison ∈ levelComparisons, comparison.op ≠ .eq
    decide

theorem levelTask_implied : (levelTask levelComparisons).AllImplied :=
  OperatorTask.redundantConstraints_implied _ levelTask_idsFit

/-- With the equality ahead, the ids 1 and 2 of the two comparisons are the numbers of its second half and
of the condition of the first comparison: their sum asks for the second variable to be at least 1. -/
theorem levelTask_not_implied : ¬ (levelTask (levelEquality :: levelComparisons)).AllImplied := by
  set task := levelTask (levelEquality :: levelComparisons)
  rintro ⟨table, actions, isBuilt, implied⟩
  have ids : task.buildActions.map (fun built => built.2.map OperatorTask.ActionConditions.effNumConditions) =
      some [[[1, 3]]] := by
    decide +kernel
  have names : task.buildActions.map (fun built => built.1.ids[3]?) = some (some [4]) := by
    decide +kernel
  -- the first variable is 1, the second one 0, the third one 2
  let state : GlobalState :=
    { values := fun var => if var = 10 then 1 else 0
      numericVars := task.getNumericVars fun var => if var = 0 then 1 else if var = 2 then 2 else 0 }
  have value : task.buildActions.map
      (fun built => (built.1.condition 4).eval task.regularVars state.numericVars) = some (-1) := by
    decide +kernel
  rw [isBuilt, Option.map_some, Option.some.injEq] at ids names value
  obtain ⟨action, rfl⟩ : ∃ action, actions = [action] := by
    rw [← List.length_eq_one_iff, ← implied.length_eq]
    rfl
  have effects := (List.forall₂_cons.mp implied).1.effects
  simp only [List.map_cons, List.map_nil, List.cons.injEq, and_true] at ids
  rw [ids] at effects
  have added := (List.forall₂_cons.mp effects).1 3 (by decide)
  obtain isOriginal | ⟨number, isNumber, condition, ⟨numbers, isNumbers, -, same⟩, isImplied⟩ := added
  · exact absurd isOriginal (by decide +kernel)
  · have isThree : number = 3 := by exact_mod_cast isNumber.symm
    rw [isThree, names, Option.some.injEq] at isNumbers
    rw [← isNumbers, List.map_singleton, List.singleton_inj] at same
    have holds := isImplied.holds state
      { evaluated := by
          refine ⟨⟨_, rfl⟩, ?_, fun rule isRule => by cases isRule⟩
          show ∀ comparison ∈ levelEquality :: levelComparisons, _
          decide +kernel
        satisfied := by decide
        linear := by
          intro fact _ position comparison _ isAxiom
          have all : ∀ comparison ∈ levelEquality :: levelComparisons,
              task.isLinear comparison.varLhs = true ∧ task.isLinear comparison.varRhs = true := by
            decide +kernel
          exact all comparison (List.mem_of_getElem? isAxiom) }
    have nonneg := holds.nonneg
    rw [← same, value] at nonneg
    norm_num at nonneg

end CutPlan.Search
