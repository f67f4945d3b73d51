import CutPlan.Lib.Rounds
import CutPlan.Preprocess.Task
import Mathlib.Data.List.MinMax

/-! # Evaluation of the axioms

Neither more rounds nor more layers than `evaluateAxioms` uses change its result, and evaluating twice
is the same as evaluating once.
-/

namespace CutPlan.Preprocess

open CutPlan.Lib CutPlan.Sas

namespace Task

variable {task : Task}

/-! ## Rounds of a layer -/

theorem applyRules_cases (task : Task) (layer : ℕ) (values : ℕ → ℤ) (var : ℕ) :
    task.applyRules layer values var = values var ∨
      values var = task.defaultValue var ∧
        ∃ rule ∈ task.axiomsRel, rule.effectVar = var ∧
          task.applyRules layer values var = rule.effectVal := by
  unfold applyRules
  cases found : task.axiomsRel.find? (task.ruleFires layer values var) with
  | none => exact .inl rfl
  | some rule =>
    have fires := List.find?_some found
    simp only [ruleFires, Bool.and_eq_true, decide_eq_true_eq] at fires
    by_cases isDefault : values var = task.defaultValue var
    · exact .inr ⟨isDefault, rule, List.mem_of_find?_eq_some found, fires.1.1, if_pos isDefault⟩
    · exact .inl (if_neg isDefault)

/-- The derived variables that no longer have their default value. -/
def changedVars (task : Task) (values : ℕ → ℤ) : Finset ℕ :=
  (task.axiomsRel.map AxiomRelational.effectVar).toFinset.filter fun var =>
    values var ≠ task.defaultValue var

theorem changedVars_card_le (values : ℕ → ℤ) :
    (task.changedVars values).card ≤ task.axiomsRel.length := by
  calc (task.changedVars values).card
      ≤ (task.axiomsRel.map AxiomRelational.effectVar).toFinset.card := Finset.card_filter_le _ _
    _ ≤ (task.axiomsRel.map AxiomRelational.effectVar).length := List.toFinset_card_le _
    _ = task.axiomsRel.length := List.length_map _

theorem changedVars_grow (layer : ℕ) (values : ℕ → ℤ) :
    task.changedVars values ⊆ task.changedVars (task.applyRules layer values) := by
  intro var member
  rw [changedVars, Finset.mem_filter] at member ⊢
  refine ⟨member.1, ?_⟩
  obtain same | ⟨isDefault, _⟩ := task.applyRules_cases layer values var
  · rw [same]
    exact member.2
  · exact absurd isDefault member.2

theorem applyRules_eq_of_changedVars_eq {layer : ℕ} {values : ℕ → ℤ}
    (same : task.changedVars values = task.changedVars (task.applyRules layer values)) :
    task.applyRules layer values = values := by
  funext var
  obtain unchanged | ⟨isDefault, rule, isRule, isEffect, result⟩ :=
    task.applyRules_cases layer values var
  · exact unchanged
  · by_contra changes
    have member : var ∈ task.changedVars (task.applyRules layer values) := by
      rw [changedVars, Finset.mem_filter, List.mem_toFinset]
      exact ⟨List.mem_map.mpr ⟨rule, isRule, isEffect⟩, by rwa [← isDefault]⟩
    rw [← same, changedVars, Finset.mem_filter] at member
    exact member.2 isDefault

theorem applyRules_stabilises (layer : ℕ) (values : ℕ → ℤ) {rounds : ℕ}
    (enough : task.axiomsRel.length ≤ rounds) :
    (task.applyRules layer)^[rounds] values =
      (task.applyRules layer)^[task.axiomsRel.length] values :=
  rounds_stable (changedVars_grow layer) changedVars_card_le
    (fun _ same => applyRules_eq_of_changedVars_eq same) values enough

/-! ## Layers -/

theorem layer_lt_layerCount {rule : AxiomRelational} (isRule : rule ∈ task.axiomsRel) {layer : ℕ}
    (inLayer : task.layer rule.effectVar = some layer) : layer < task.layerCount := by
  refine Nat.lt_succ_of_le (List.le_max_of_le (List.mem_map_of_mem isRule) ?_)
  rw [inLayer, Option.getD_some]

theorem applyRules_above {layer : ℕ} (above : task.layerCount ≤ layer) :
    task.applyRules layer = id := by
  funext values var
  have silent : task.axiomsRel.find? (task.ruleFires layer values var) = none := by
    rw [List.find?_eq_none]
    intro rule isRule fires
    simp only [ruleFires, Bool.and_eq_true, decide_eq_true_eq] at fires
    have below := layer_lt_layerCount isRule (fires.1.1 ▸ fires.1.2)
    omega
  simp [applyRules, silent]

/-- More rounds and more layers than `evaluateRules` uses do not change the result. -/
theorem evaluateRules_eq {rounds layers : ℕ} (enoughRounds : task.axiomsRel.length ≤ rounds)
    (enoughLayers : task.layerCount ≤ layers) (values : ℕ → ℤ) :
    task.evaluateRules values =
      (List.range layers).foldl
        (fun values layer => (task.applyRules layer)^[rounds] values) values := by
  simp only [applyRules_stabilises _ _ enoughRounds]
  induction layers, enoughLayers using Nat.le_induction with
  | base => rfl
  | succ layers above inductionHypothesis =>
    rw [List.range_succ, List.foldl_append, ← inductionHypothesis, List.foldl_cons, List.foldl_nil,
      applyRules_above above, Function.iterate_id, id]

/-! ## Evaluating twice -/

theorem evaluateAxioms_numericValues (task : Task) (state : State) :
    (task.evaluateAxioms state).numericValues =
      task.axiomsNumeric.foldl compute (task.resetDerived state).numericValues := rfl

theorem evaluateAxioms_values (task : Task) (state : State) :
    (task.evaluateAxioms state).values =
      task.evaluateRules
        (task.axiomsFuncComp.foldl (compare (task.evaluateAxioms state).numericValues)
          (task.resetDerived state).values) := rfl

theorem foldl_untouched {α β : Type} {step : (ℕ → α) → β → ℕ → α} {var : ℕ} {steps : List β}
    (untouched : ∀ entry ∈ steps, ∀ values, step values entry var = values var) (values : ℕ → α) :
    steps.foldl step values var = values var := by
  induction steps generalizing values with
  | nil => rfl
  | cons entry steps inductionHypothesis =>
    rw [List.forall_mem_cons] at untouched
    rw [List.foldl_cons, inductionHypothesis untouched.2, untouched.1]

theorem applyRules_underived (derive : task.AxiomsDerive) {var : ℕ}
    (underived : ¬ (task.layer var).isSome = true) (layer : ℕ) (values : ℕ → ℤ) :
    task.applyRules layer values var = values var := by
  obtain same | ⟨_, rule, isRule, rfl, _⟩ := task.applyRules_cases layer values var
  · exact same
  · exact absurd (derive.byRule rule isRule) underived

theorem evaluateRules_underived (derive : task.AxiomsDerive) {var : ℕ}
    (underived : ¬ (task.layer var).isSome = true) (values : ℕ → ℤ) :
    task.evaluateRules values var = values var := by
  refine foldl_untouched (fun layer _ values => ?_) values
  induction task.axiomsRel.length with
  | zero => rfl
  | succ rounds inductionHypothesis =>
    rw [Function.iterate_succ_apply', applyRules_underived derive underived,
      inductionHypothesis]

/-- Evaluating the axioms leaves the variables alone that are not derived. -/
theorem resetDerived_evaluateAxioms (derive : task.AxiomsDerive) (state : State) :
    task.resetDerived (task.evaluateAxioms state) = task.resetDerived state := by
  rw [resetDerived, resetDerived, State.mk.injEq]
  constructor
  · funext var
    by_cases derived : (task.layer var).isSome = true
    · simp only [derived, if_true]
    · rw [if_neg derived, if_neg derived, evaluateAxioms_values,
        evaluateRules_underived derive derived, foldl_untouched]
      · simp only [resetDerived, derived, if_false, Bool.false_eq_true]
      · intro rule isRule values
        refine Function.update_of_ne ?_ _ _
        rintro rfl
        exact derived (derive.byComparison rule isRule)
  · funext var
    by_cases derived : task.numericType var = .derived
    · simp only [derived, if_true]
    · rw [if_neg derived, if_neg derived, evaluateAxioms_numericValues, foldl_untouched]
      · simp only [resetDerived, derived, if_false]
      · intro rule isRule values
        refine Function.update_of_ne ?_ _ _
        rintro rfl
        exact derived (derive.byComputation rule isRule)

theorem evaluateAxioms_idempotent (derive : task.AxiomsDerive) (state : State) :
    task.evaluateAxioms (task.evaluateAxioms state) = task.evaluateAxioms state := by
  have same := resetDerived_evaluateAxioms derive state
  have numericSame : (task.evaluateAxioms (task.evaluateAxioms state)).numericValues =
      (task.evaluateAxioms state).numericValues := by
    rw [evaluateAxioms_numericValues, same, evaluateAxioms_numericValues]
  refine State.ext ?_ numericSame
  rw [evaluateAxioms_values, numericSame, same, evaluateAxioms_values]

end Task

end CutPlan.Preprocess
