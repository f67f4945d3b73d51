import CutPlan.Preprocess.AxiomEvaluation
import CutPlan.Preprocess.CausalGraph
import Mathlib.Data.List.Find

/-! # States that agree on a set of variables

If a set of variables contains everything its members depend on, a task and its stripped form keep
states that agree on the set in agreement.
-/

namespace CutPlan.Preprocess

open CutPlan.Lib CutPlan.Sas

structure AgreeOn (kept : CGVar → Prop) (left right : State) : Prop where
  values : ∀ var, kept (.propositional var) → left.values var = right.values var
  numericValues : ∀ var, kept (.numeric var) → left.numericValues var = right.numericValues var

variable {kept : CGVar → Prop}

theorem AgreeOn.mono {smaller : CGVar → Prop} {left right : State} (agree : AgreeOn kept left right)
    (subset : ∀ var, smaller var → kept var) : AgreeOn smaller left right where
  values := fun var isKept => agree.values var (subset _ isKept)
  numericValues := fun var isKept => agree.numericValues var (subset _ isKept)

theorem allHold_agree {conditions : List Condition} {left right : ℕ → ℤ}
    (agree : ∀ var, kept (.propositional var) → left var = right var)
    (within : ∀ condition ∈ conditions, kept (.propositional condition.var)) :
    Condition.allHold conditions left = Condition.allHold conditions right := by
  unfold Condition.allHold
  rw [Bool.eq_iff_iff]
  simp only [List.all_eq_true, decide_eq_true_eq]
  exact forall₂_congr fun condition member => by
    rw [agree condition.var (within condition member)]

/-- Two folds stay related if the steps that both make keep the relation, and so do those that only
the first one makes. -/
theorem foldl_filter_related {α β γ : Type} (related : α → β → Prop) {left : α → γ → α}
    {right : β → γ → β} {isShared : γ → Bool} (steps : List γ)
    (shared : ∀ step ∈ steps, ∀ a b, isShared step = true → related a b →
      related (left a step) (right b step))
    (skipped : ∀ step ∈ steps, ∀ a b, isShared step = false → related a b →
      related (left a step) b)
    {a : α} {b : β} (start : related a b) :
    related (steps.foldl left a) ((steps.filter isShared).foldl right b) := by
  induction steps generalizing a b with
  | nil => exact start
  | cons step steps inductionHypothesis =>
    rw [List.forall_mem_cons] at shared skipped
    cases isStep : isShared step with
    | true =>
      rw [List.filter_cons_of_pos isStep]
      exact inductionHypothesis shared.2 skipped.2 (shared.1 a b isStep start)
    | false =>
      rw [List.filter_cons_of_neg (by simp [isStep])]
      exact inductionHypothesis shared.2 skipped.2 (skipped.1 a b isStep start)

/-- Updates of a kept variable with equal values keep functions in agreement. -/
theorem update_agree {α : Type} (member : ℕ → Prop) {left right : ℕ → α} {target : ℕ}
    {leftValue rightValue : α} (agree : ∀ var, member var → left var = right var)
    (same : member target → leftValue = rightValue) (var : ℕ) (isMember : member var) :
    Function.update left target leftValue var = Function.update right target rightValue var := by
  by_cases isTarget : var = target
  · subst isTarget
    rw [Function.update_self, Function.update_self, same isMember]
  · rw [Function.update_of_ne isTarget, Function.update_of_ne isTarget, agree var isMember]

theorem update_skipped {α : Type} (member : ℕ → Prop) {left right : ℕ → α} {target : ℕ}
    {value : α} (agree : ∀ var, member var → left var = right var) (outside : ¬ member target)
    (var : ℕ) (isMember : member var) : Function.update left target value var = right var := by
  have different : var ≠ target := by
    rintro rfl
    exact outside isMember
  rw [Function.update_of_ne different, agree var isMember]

/-! ## Operators -/

/-- Everything the effects on members of the set read is in the set. -/
structure OperatorClosed (kept : CGVar → Prop) (op : Operator) : Prop where
  prePost : ∀ effect ∈ op.prePost, kept (.propositional effect.var) →
    ∀ condition ∈ effect.effectConds, kept (.propositional condition.var)
  numericConds : ∀ effect ∈ op.assignEffects, kept (.numeric effect.var) →
    ∀ condition ∈ effect.effectConds, kept (.propositional condition.var)
  numericOperand : ∀ effect ∈ op.assignEffects, kept (.numeric effect.var) →
    kept (.numeric effect.foperand)

/-- Stripping removes no effect on a member of the set. -/
structure LevelsKeep (kept : CGVar → Prop) (levels : Levels) : Prop where
  propositional : ∀ var, kept (.propositional var) → levels.propositional var ≠ -1
  numeric : ∀ var, kept (.numeric var) → levels.numeric var ≠ -1

theorem applyOperator_agree {full stripped : Task} {levels : Levels} {op : Operator}
    {left right : State} (sameTypes : full.numericType = stripped.numericType)
    (levelsKeep : LevelsKeep kept levels) (closed : OperatorClosed kept op)
    (agree : AgreeOn kept left right) :
    AgreeOn kept (full.applyOperator op left)
      (stripped.applyOperator (op.stripUnimportantEffects levels) right) where
  values := by
    refine foldl_filter_related
      (fun left right : ℕ → ℤ => ∀ var, kept (.propositional var) → left var = right var)
      op.prePost ?_ ?_ agree.values
    · intro effect member leftValues rightValues _ related var isKept
      unfold Task.applyPrePost
      by_cases own : kept (.propositional effect.var)
      · rw [allHold_agree agree.values (closed.prePost effect member own)]
        split
        · exact update_agree (fun var => kept (.propositional var)) related
            (fun _ => rfl) var isKept
        · exact related var isKept
      · have different : var ≠ effect.var := fun same => own (same ▸ isKept)
        split_ifs <;> simp [Function.update_of_ne different, related var isKept]
    · intro effect member leftValues rightValues pruned related var isKept
      unfold Task.applyPrePost
      have outside : ¬ kept (.propositional effect.var) := fun own =>
        levelsKeep.propositional effect.var own (by simpa using pruned)
      split
      · exact update_skipped (fun var => kept (.propositional var)) related outside var
          isKept
      · exact related var isKept
  numericValues := by
    refine foldl_filter_related
      (fun left right : ℕ → ℚ => ∀ var, kept (.numeric var) → left var = right var)
      op.assignEffects ?_ ?_ agree.numericValues
    · intro effect member leftValues rightValues _ related var isKept
      unfold Task.applyNumericEffect
      by_cases own : kept (.numeric effect.var)
      · have operand := closed.numericOperand effect member own
        rw [allHold_agree agree.values (closed.numericConds effect member own), sameTypes,
          related _ operand, agree.numericValues _ operand, related _ own]
        split
        · exact update_agree (fun var => kept (.numeric var)) related (fun _ => rfl) var
            isKept
        · exact related var isKept
      · have different : var ≠ effect.var := fun same => own (same ▸ isKept)
        split_ifs <;> simp [Function.update_of_ne different, related var isKept]
    · intro effect member leftValues rightValues pruned related var isKept
      unfold Task.applyNumericEffect
      have outside : ¬ kept (.numeric effect.var) := fun own =>
        levelsKeep.numeric effect.var own (by simpa using pruned)
      split
      · exact update_skipped (fun var => kept (.numeric var)) related outside var isKept
      · exact related var isKept

/-- An operator without an effect on the set changes none of its members. -/
theorem applyOperator_unaffected {task : Task} {op : Operator} {state : State}
    (propositional : ∀ effect ∈ op.prePost, ¬ kept (.propositional effect.var))
    (numeric : ∀ effect ∈ op.assignEffects, ¬ kept (.numeric effect.var)) :
    AgreeOn kept (task.applyOperator op state) state where
  values := by
    intro var isKept
    refine Task.foldl_untouched (fun effect isEffect values => ?_) state.values
    have different : var ≠ effect.var := by
      rintro rfl
      exact propositional effect isEffect isKept
    simp [Task.applyPrePost, apply_ite (fun values : ℕ → ℤ => values var), different]
  numericValues := by
    intro var isKept
    refine Task.foldl_untouched (fun effect isEffect values => ?_) state.numericValues
    have different : var ≠ effect.var := by
      rintro rfl
      exact numeric effect isEffect isKept
    simp [Task.applyNumericEffect, apply_ite (fun values : ℕ → ℚ => values var), different]

/-! ## Axioms -/

/-- Everything the axioms that derive members of the set read is in the set. -/
structure AxiomsClosed (kept : CGVar → Prop) (task : Task) : Prop where
  rules : ∀ rule ∈ task.axiomsRel, kept (.propositional rule.effectVar) →
    ∀ condition ∈ rule.conditions, kept (.propositional condition.var)
  comparisons : ∀ rule ∈ task.axiomsFuncComp, kept (.propositional rule.effectVar) →
    kept (.numeric rule.leftVar) ∧ kept (.numeric rule.rightVar)
  computations : ∀ rule ∈ task.axiomsNumeric, kept (.numeric rule.effectVar) →
    kept (.numeric rule.leftVar) ∧ kept (.numeric rule.rightVar)

/-- The second task has the axioms of the first that derive necessary variables. -/
structure StripsAxioms (necessary : CGVar → Bool) (full stripped : Task) : Prop where
  layer : stripped.layer = full.layer
  defaultValue : stripped.defaultValue = full.defaultValue
  numericType : stripped.numericType = full.numericType
  axiomsRel : stripped.axiomsRel =
    full.axiomsRel.filter fun rule => necessary (.propositional rule.effectVar)
  axiomsFuncComp : stripped.axiomsFuncComp =
    full.axiomsFuncComp.filter fun rule => necessary (.propositional rule.effectVar)
  axiomsNumeric : stripped.axiomsNumeric =
    full.axiomsNumeric.filter fun rule => necessary (.numeric rule.effectVar)

section Axioms

variable {necessary : CGVar → Bool} {full stripped : Task}

theorem resetDerived_agree (strips : StripsAxioms necessary full stripped) {left right : State}
    (agree : AgreeOn kept left right) :
    AgreeOn kept (full.resetDerived left) (stripped.resetDerived right) where
  values := by
    intro var isKept
    simp only [Task.resetDerived, strips.layer, strips.defaultValue, agree.values var isKept]
  numericValues := by
    intro var isKept
    simp only [Task.resetDerived, strips.numericType, agree.numericValues var isKept]

theorem computations_agree (strips : StripsAxioms necessary full stripped)
    (closed : AxiomsClosed kept full) (within : ∀ var, kept var → necessary var = true)
    {left right : ℕ → ℚ} (agree : ∀ var, kept (.numeric var) → left var = right var) :
    ∀ var, kept (.numeric var) → full.axiomsNumeric.foldl Task.compute left var =
      stripped.axiomsNumeric.foldl Task.compute right var := by
  rw [strips.axiomsNumeric]
  refine foldl_filter_related
    (fun left right : ℕ → ℚ => ∀ var, kept (.numeric var) → left var = right var)
    full.axiomsNumeric ?_ ?_ agree
  · intro rule isRule left right _ related
    refine update_agree (fun var => kept (.numeric var)) related fun own => ?_
    obtain ⟨leftKept, rightKept⟩ := closed.computations rule isRule own
    rw [related _ leftKept, related _ rightKept]
  · intro rule isRule left right removed related
    refine update_skipped (fun var => kept (.numeric var)) related fun own => ?_
    rw [within _ own] at removed
    cases removed

theorem comparisons_agree (strips : StripsAxioms necessary full stripped)
    (closed : AxiomsClosed kept full) (within : ∀ var, kept var → necessary var = true)
    {leftNumeric rightNumeric : ℕ → ℚ}
    (sameNumeric : ∀ var, kept (.numeric var) → leftNumeric var = rightNumeric var)
    {left right : ℕ → ℤ} (agree : ∀ var, kept (.propositional var) → left var = right var) :
    ∀ var, kept (.propositional var) →
      full.axiomsFuncComp.foldl (Task.compare leftNumeric) left var =
        stripped.axiomsFuncComp.foldl (Task.compare rightNumeric) right var := by
  rw [strips.axiomsFuncComp]
  refine foldl_filter_related
    (fun left right : ℕ → ℤ => ∀ var, kept (.propositional var) → left var = right var)
    full.axiomsFuncComp ?_ ?_ agree
  · intro rule isRule left right _ related
    refine update_agree (fun var => kept (.propositional var)) related fun own => ?_
    obtain ⟨leftKept, rightKept⟩ := closed.comparisons rule isRule own
    rw [sameNumeric _ leftKept, sameNumeric _ rightKept]
  · intro rule isRule left right removed related
    refine update_skipped (fun var => kept (.propositional var)) related fun own => ?_
    rw [within _ own] at removed
    cases removed

/-- The rules that can derive a necessary variable are the same in both tasks. -/
theorem applyRules_agree (strips : StripsAxioms necessary full stripped)
    (closed : AxiomsClosed kept full) (within : ∀ var, kept var → necessary var = true) (layer : ℕ)
    {left right : ℕ → ℤ} (agree : ∀ var, kept (.propositional var) → left var = right var) :
    ∀ var, kept (.propositional var) →
      full.applyRules layer left var = stripped.applyRules layer right var := by
  intro var isKept
  have found : full.axiomsRel.find? (full.ruleFires layer left var) =
      stripped.axiomsRel.find? (stripped.ruleFires layer right var) := by
    rw [strips.axiomsRel, List.find?_filter]
    refine List.find?_congr fun rule isRule => ?_
    by_cases derives : rule.effectVar = var
    · subst derives
      have conditions := allHold_agree agree (closed.rules rule isRule isKept)
      simp [Task.ruleFires, strips.layer, conditions, within _ isKept]
    · simp [Task.ruleFires, derives]
  unfold Task.applyRules
  rw [found, strips.defaultValue, agree var isKept]

theorem layerCount_le (strips : StripsAxioms necessary full stripped) :
    stripped.layerCount ≤ full.layerCount := by
  have smaller : ∀ rules : List AxiomRelational,
      ((rules.filter fun rule => necessary (.propositional rule.effectVar)).map fun rule =>
        (full.layer rule.effectVar).getD 0).foldr max 0 ≤
      (rules.map fun rule => (full.layer rule.effectVar).getD 0).foldr max 0 := by
    intro rules
    induction rules with
    | nil => exact Nat.le_refl _
    | cons rule rules inductionHypothesis =>
      rw [List.filter_cons]
      split
      · simp only [List.map_cons, List.foldr_cons]
        exact max_le_max (Nat.le_refl _) inductionHypothesis
      · rw [List.map_cons, List.foldr_cons]
        exact inductionHypothesis.trans (Nat.le_max_right _ _)
  unfold Task.layerCount
  rw [strips.axiomsRel, strips.layer]
  exact Nat.succ_le_succ (smaller full.axiomsRel)

theorem evaluateRules_agree (strips : StripsAxioms necessary full stripped)
    (closed : AxiomsClosed kept full) (within : ∀ var, kept var → necessary var = true)
    {left right : ℕ → ℤ} (agree : ∀ var, kept (.propositional var) → left var = right var) :
    ∀ var, kept (.propositional var) →
      full.evaluateRules left var = stripped.evaluateRules right var := by
  have fewer : stripped.axiomsRel.length ≤ full.axiomsRel.length := by
    rw [strips.axiomsRel]
    exact List.length_filter_le _ _
  rw [Task.evaluateRules, Task.evaluateRules_eq fewer (layerCount_le strips)]
  induction List.range full.layerCount generalizing left right with
  | nil => exact agree
  | cons layer layers inductionHypothesis =>
    refine inductionHypothesis ?_
    induction full.axiomsRel.length with
    | zero => exact agree
    | succ rounds roundHypothesis =>
      simp only [Function.iterate_succ_apply']
      exact applyRules_agree strips closed within layer roundHypothesis

theorem evaluateAxioms_agree (strips : StripsAxioms necessary full stripped)
    (closed : AxiomsClosed kept full) (within : ∀ var, kept var → necessary var = true)
    {left right : State} (agree : AgreeOn kept left right) :
    AgreeOn kept (full.evaluateAxioms left) (stripped.evaluateAxioms right) := by
  have reset := resetDerived_agree strips agree
  have numericSame := computations_agree strips closed within reset.numericValues
  exact ⟨evaluateRules_agree strips closed within
    (comparisons_agree strips closed within numericSame reset.values), numericSame⟩

end Axioms

end CutPlan.Preprocess
