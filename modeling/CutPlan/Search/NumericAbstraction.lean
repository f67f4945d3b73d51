import CutPlan.Search.NumericHelper
import Mathlib.Algebra.BigOperators.Ring.Finset

/-! # The proxy describes the successor

The value that the slots of an action describe for a regular variable, against the value that
`get_numeric_successor` computes.
-/

namespace CutPlan.Search

open CutPlan.Sas

namespace ProxyTask

variable (task : ProxyTask) (options : ProxyOptions)

/-- The numeric values of a state: the derived ones are computed from the values that are stored. -/
def getNumericVars (stored : ℕ → ℚ) : ℕ → ℚ :=
  task.evaluateArithmeticAxioms fun var =>
    match task.numericVarTypes var with
    | .constant => task.initialStateNumeric var
    | .derived => 0
    | _ => stored var

/-- What the action says about the value of a variable after the operator. -/
def describedValue (action : Action) (numericVars : ℕ → ℚ) (var : ℕ) : ℚ :=
  match (action.linearEffects.filter fun effect => effect.lhs = var).getLast? with
  | some effect =>
    (∑ other ∈ task.regularVars, effect.coefficients other * numericVars other) + effect.constant
  | none =>
    if action.isAssignment var then action.assignList var
    else numericVars var + action.effList var

/-! ## Linear expressions -/

def isVariableFree (expression : LinearNumericCondition) : Bool :=
  decide (∀ var ∈ task.regularVars, expression.coefficients var = 0)

/-- Whether the axiom combines linear expressions to a linear one.  A product needs a constant on the
left or an operand without variables on the right. -/
def keepsLinear (artificialVariables : ℕ → LinearNumericCondition) (assAxiom : AssignmentAxiom) :
    Bool :=
  match assAxiom.op with
  | .sum | .diff => true
  | .mult => task.numericVarTypes assAxiom.varLhs = .constant ||
      task.isVariableFree (artificialVariables assAxiom.varRhs)
  | .divi => task.isVariableFree (artificialVariables assAxiom.varRhs)

/-- The artificial variables with the set of variables that they express exactly. -/
def combineLinear (state : (ℕ → LinearNumericCondition) × (ℕ → Bool)) (assAxiom : AssignmentAxiom) :
    (ℕ → LinearNumericCondition) × (ℕ → Bool) :=
  (task.combine state.1 assAxiom,
    Function.update state.2 assAxiom.affectedVariable
      (state.2 assAxiom.varLhs && state.2 assAxiom.varRhs && task.keepsLinear state.1 assAxiom))

/-- The variable is regular, constant or computed from such variables by linear arithmetic. -/
def isLinear : ℕ → Bool :=
  (task.assAxioms.foldl task.combineLinear
    (task.initialArtificialVariable, fun var =>
      task.numericVarTypes var = .regular || task.numericVarTypes var = .constant)).2

variable {task}

theorem eval_add (left right : LinearNumericCondition) (numericVars : ℕ → ℚ) :
    (left.add right).eval task.regularVars numericVars =
      left.eval task.regularVars numericVars + right.eval task.regularVars numericVars := by
  simp only [LinearNumericCondition.eval, LinearNumericCondition.add, add_mul,
    Finset.sum_add_distrib]
  ring

theorem eval_sub (left right : LinearNumericCondition) (numericVars : ℕ → ℚ) :
    (left.sub right).eval task.regularVars numericVars =
      left.eval task.regularVars numericVars - right.eval task.regularVars numericVars := by
  simp only [LinearNumericCondition.eval, LinearNumericCondition.sub, sub_mul,
    Finset.sum_sub_distrib]
  ring

theorem eval_of_isVariableFree {expression : LinearNumericCondition}
    (variableFree : task.isVariableFree expression = true) (numericVars : ℕ → ℚ) :
    expression.eval task.regularVars numericVars = expression.constant := by
  simp only [isVariableFree, decide_eq_true_eq] at variableFree
  unfold LinearNumericCondition.eval
  rw [Finset.sum_eq_zero, zero_add]
  intro var member
  rw [variableFree var member, zero_mul]

theorem mem_regularVars {var : ℕ} :
    var ∈ task.regularVars ↔ task.numericVarTypes var = .regular := by
  simp only [regularVars, Finset.mem_filter, Finset.mem_range, and_iff_right_iff_imp]
  exact task.regular_lt_count var

theorem eval_initialArtificialVariable {numericVars : ℕ → ℚ}
    (constants : ∀ var, task.numericVarTypes var = .constant →
      numericVars var = task.initialStateNumeric var) {var : ℕ}
    (type : task.numericVarTypes var = .regular ∨ task.numericVarTypes var = .constant) :
    (task.initialArtificialVariable var).eval task.regularVars numericVars = numericVars var := by
  cases type with
  | inl regular =>
    simp [initialArtificialVariable, regular, LinearNumericCondition.eval,
      LinearNumericCondition.zero, mem_regularVars]
  | inr constant =>
    simp [initialArtificialVariable, constant, LinearNumericCondition.eval,
      LinearNumericCondition.zero, constants var constant]

/-- One axiom: what it computes is the value of the combined expression. -/
theorem eval_combine {artificialVariables : ℕ → LinearNumericCondition} {assAxiom : AssignmentAxiom}
    {base numericVars : ℕ → ℚ}
    (left : (artificialVariables assAxiom.varLhs).eval task.regularVars base =
      numericVars assAxiom.varLhs)
    (right : (artificialVariables assAxiom.varRhs).eval task.regularVars base =
      numericVars assAxiom.varRhs)
    (constantLeft : task.numericVarTypes assAxiom.varLhs = .constant →
      task.isVariableFree (artificialVariables assAxiom.varLhs) = true)
    (linear : task.keepsLinear artificialVariables assAxiom = true) :
    (task.combine artificialVariables assAxiom assAxiom.affectedVariable).eval task.regularVars base =
      assAxiom.op.eval (numericVars assAxiom.varLhs) (numericVars assAxiom.varRhs) := by
  rw [← left, ← right]
  simp only [combine, Function.update_self]
  simp only [keepsLinear] at linear
  cases op : assAxiom.op with
  | sum => exact eval_add _ _ base
  | diff => exact eval_sub _ _ base
  | mult =>
    simp only [op, Bool.or_eq_true, decide_eq_true_eq] at linear
    simp only [CalOperator.eval]
    by_cases isConstant : task.numericVarTypes assAxiom.varLhs = .constant
    · rw [if_pos isConstant, eval_of_isVariableFree (constantLeft isConstant)]
      simp only [LinearNumericCondition.eval, mul_add, Finset.mul_sum, mul_assoc]
    · rw [if_neg isConstant, eval_of_isVariableFree (linear.resolve_left isConstant)]
      simp only [LinearNumericCondition.eval, add_mul, Finset.sum_mul, mul_right_comm]
  | divi =>
    simp only [op] at linear
    rw [CalOperator.eval, eval_of_isVariableFree linear]
    simp only [LinearNumericCondition.eval, add_div, Finset.sum_div, div_mul_eq_mul_div]

/-- What has been expressed exactly after some of the axioms. -/
structure Expresses (task : ProxyTask) (base numericVars : ℕ → ℚ)
    (state : (ℕ → LinearNumericCondition) × (ℕ → Bool)) : Prop where
  exact : ∀ var, state.2 var = true → (state.1 var).eval task.regularVars base = numericVars var
  constants : ∀ var, task.numericVarTypes var = .constant →
    state.1 var = task.initialArtificialVariable var

theorem Expresses.combine {base numericVars : ℕ → ℚ}
    {state : (ℕ → LinearNumericCondition) × (ℕ → Bool)} (before : task.Expresses base numericVars state)
    {assAxiom : AssignmentAxiom}
    (derived : task.numericVarTypes assAxiom.affectedVariable = .derived) :
    task.Expresses base (assAxiom.evaluate numericVars) (task.combineLinear state assAxiom) where
  exact := by
    intro var isExact
    unfold AssignmentAxiom.evaluate
    by_cases affected : var = assAxiom.affectedVariable
    · subst affected
      simp only [combineLinear, Function.update_self, Bool.and_eq_true] at isExact
      obtain ⟨⟨leftExact, rightExact⟩, linear⟩ := isExact
      rw [Function.update_self]
      refine eval_combine (before.exact _ leftExact) (before.exact _ rightExact) ?_ linear
      intro isConstant
      rw [before.constants _ isConstant]
      simp [isVariableFree, initialArtificialVariable, isConstant, LinearNumericCondition.zero]
    · simp only [combineLinear, ProxyTask.combine, Function.update_of_ne affected] at isExact ⊢
      exact before.exact var isExact
  constants := by
    intro var isConstant
    have different : var ≠ assAxiom.affectedVariable := by
      rintro rfl
      simp [isConstant] at derived
    simp only [combineLinear, ProxyTask.combine, Function.update_of_ne different]
    exact before.constants var isConstant

theorem Expresses.foldl {base numericVars : ℕ → ℚ} (assAxioms : List AssignmentAxiom)
    (derived : ∀ assAxiom ∈ assAxioms, task.numericVarTypes assAxiom.affectedVariable = .derived)
    (state : (ℕ → LinearNumericCondition) × (ℕ → Bool))
    (before : task.Expresses base numericVars state) :
    task.Expresses base (assAxioms.foldl AssignmentAxiom.evaluate numericVars)
      (assAxioms.foldl task.combineLinear state) := by
  induction assAxioms generalizing numericVars state with
  | nil => exact before
  | cons assAxiom assAxioms inductionHypothesis =>
    rw [List.forall_mem_cons] at derived
    exact inductionHypothesis derived.2 _ (before.combine derived.1)

theorem combineLinear_fst (assAxioms : List AssignmentAxiom)
    (state : (ℕ → LinearNumericCondition) × (ℕ → Bool)) :
    (assAxioms.foldl task.combineLinear state).1 = assAxioms.foldl task.combine state.1 := by
  induction assAxioms generalizing state with
  | nil => rfl
  | cons assAxiom assAxioms inductionHypothesis => exact inductionHypothesis _

/-- The artificial variable of a linear variable has its value in every state. -/
theorem artificialVariables_eval (stored : ℕ → ℚ) {var : ℕ} (linear : task.isLinear var = true) :
    (task.artificialVariables var).eval task.regularVars (task.getNumericVars stored) =
      task.getNumericVars stored var := by
  have expresses : task.Expresses
      (fun var => match task.numericVarTypes var with
        | .constant => task.initialStateNumeric var
        | .derived => 0
        | _ => stored var) _ _ :=
    Expresses.foldl task.assAxioms task.assAxioms_derived
      (task.initialArtificialVariable, fun var =>
        task.numericVarTypes var = .regular || task.numericVarTypes var = .constant)
      ⟨fun var isExact => eval_initialArtificialVariable
          (fun var isConstant => by simp [isConstant]) (by simpa using isExact),
        fun _ _ => rfl⟩
  have sameRegular : ∀ other ∈ task.regularVars, task.getNumericVars stored other = stored other := by
    intro other member
    rw [mem_regularVars] at member
    rw [getNumericVars, NumericTask.evaluateArithmeticAxioms_of_not_derived (by simp [member])]
    simp [member]
  have value := expresses.exact var linear
  rw [combineLinear_fst] at value
  refine Eq.trans ?_ value
  unfold LinearNumericCondition.eval
  congr 1
  refine Finset.sum_congr rfl fun other member => ?_
  rw [sameRegular other member]
  rw [mem_regularVars] at member
  simp only [member, artificialVariables]

theorem isLinear_of_not_derived {var : ℕ} (notDerived : task.numericVarTypes var ≠ .derived)
    (linear : task.isLinear var = true) :
    task.numericVarTypes var = .regular ∨ task.numericVarTypes var = .constant := by
  have kept : ∀ (assAxioms : List AssignmentAxiom)
      (state : (ℕ → LinearNumericCondition) × (ℕ → Bool)),
      (∀ assAxiom ∈ assAxioms, task.numericVarTypes assAxiom.affectedVariable = .derived) →
      (assAxioms.foldl task.combineLinear state).2 var = state.2 var := by
    intro assAxioms
    induction assAxioms with
    | nil => exact fun _ _ => rfl
    | cons assAxiom assAxioms inductionHypothesis =>
      intro state derived
      rw [List.forall_mem_cons] at derived
      rw [List.foldl_cons, inductionHypothesis _ derived.2]
      apply Function.update_of_ne
      rintro rfl
      exact notDerived derived.1
  unfold isLinear at linear
  rw [kept task.assAxioms _ task.assAxioms_derived] at linear
  simpa using linear

theorem isLinear_not_instrumentation {var : ℕ} (linear : task.isLinear var = true) :
    task.numericVarTypes var ≠ .instrumentation := by
  intro type
  cases isLinear_of_not_derived (by simp [type]) linear with
  | inl regular => simp [type] at regular
  | inr constant => simp [type] at constant

/-! ## Slots of a variable -/

/-- The slots of the variable are the same in both actions. -/
structure SameSlots (var : ℕ) (left right : Action) : Prop where
  effList : left.effList var = right.effList var
  isAssignment : left.isAssignment var = right.isAssignment var
  assignList : left.assignList var = right.assignList var
  linearEffects : (left.linearEffects.filter fun effect => effect.lhs = var) =
    right.linearEffects.filter fun effect => effect.lhs = var

theorem SameSlots.describedValue {var : ℕ} {left right : Action} (same : SameSlots var left right)
    (numericVars : ℕ → ℚ) :
    task.describedValue left numericVars var = task.describedValue right numericVars var := by
  unfold ProxyTask.describedValue
  rw [same.linearEffects, same.isAssignment, same.assignList, same.effList]

theorem addNumericEffect_other {var : ℕ} (action : Action) {effect : AssignEffect}
    (other : effect.affVar ≠ var) :
    SameSlots var (task.addNumericEffect options action effect) action := by
  unfold addNumericEffect
  cases task.numericVarTypes effect.affVar with
  | unknown | constant | derived => exact ⟨rfl, rfl, rfl, rfl⟩
  | instrumentation =>
    simp only [addCostEffect]
    split
    · exact ⟨rfl, rfl, rfl, rfl⟩
    · split <;> exact ⟨rfl, rfl, rfl, rfl⟩
  | regular =>
    simp only [addRegularEffect]
    split
    · split
      · exact ⟨Function.update_of_ne (Ne.symm other) _ _, rfl, rfl, rfl⟩
      · exact ⟨rfl, rfl, rfl, rfl⟩
    · split
      · split
        · exact ⟨rfl, Function.update_of_ne (Ne.symm other) _ _,
            Function.update_of_ne (Ne.symm other) _ _, rfl⟩
        · exact ⟨rfl, rfl, rfl, rfl⟩
      · refine ⟨rfl, rfl, rfl, ?_⟩
        simp [linearEffect, other]

/-! ## A single effect on a variable -/

/-- No coefficient that the classification compares is confused with another one. -/
structure Precise (task : ProxyTask) (options : ProxyOptions) (effect : AssignEffect) : Prop where
  zero : ∀ var ∈ task.regularVars,
    |(task.artificialVariables effect.assVar).coefficients var| < options.precision →
      (task.artificialVariables effect.assVar).coefficients var = 0
  negOne : |(task.artificialVariables effect.assVar).coefficients effect.affVar + 1| <
    options.precision → (task.artificialVariables effect.assVar).coefficients effect.affVar = -1
  one : |(task.artificialVariables effect.assVar).coefficients effect.affVar - 1| <
    options.precision → (task.artificialVariables effect.assVar).coefficients effect.affVar = 1

variable {options}

theorem eval_of_no_other_coefficients {effect : AssignEffect} (precise : task.Precise options effect)
    (regular : task.numericVarTypes effect.affVar = .regular)
    (noOther : task.hasOtherCoefficients options (task.artificialVariables effect.assVar)
      effect.affVar = false) (numericVars : ℕ → ℚ) :
    (task.artificialVariables effect.assVar).eval task.regularVars numericVars =
      (task.artificialVariables effect.assVar).coefficients effect.affVar *
          numericVars effect.affVar +
        (task.artificialVariables effect.assVar).constant := by
  unfold LinearNumericCondition.eval
  rw [Finset.sum_eq_single_of_mem effect.affVar (mem_regularVars.mpr regular)]
  intro other member different
  simp only [hasOtherCoefficients, decide_eq_false_iff_not, not_exists, not_and, not_le] at noOther
  rw [precise.zero other member (noOther other member different), zero_mul]

theorem describedValue_linear {action : Action} {effect : AssignEffect} {numericVars : ℕ → ℚ}
    (regular : task.numericVarTypes effect.affVar = .regular)
    (supported : effect.fop = .assign ∨ effect.fop = .increase ∨ effect.fop = .decrease)
    (expression : LinearNumericCondition) :
    task.describedValue
        { action with linearEffects := action.linearEffects ++ [linearEffect effect expression] }
        numericVars effect.affVar =
      effect.fop.assignEffect (numericVars effect.affVar)
        (expression.eval task.regularVars numericVars) := by
  have member := mem_regularVars.mpr regular
  simp only [describedValue, List.filter_append, linearEffect, List.filter_cons_of_pos, decide_true,
    List.filter_nil, List.getLast?_append, List.getLast?_singleton, Option.some_or]
  rcases supported with fop | fop | fop
  · simp [fop, signed, FOperator.assignEffect, LinearNumericCondition.eval]
  · simp only [fop, signed, FOperator.assignEffect, LinearNumericCondition.eval, reduceCtorEq,
      ne_eq, not_false_eq_true, true_and, if_false, add_mul, ite_mul, one_mul, zero_mul,
      Finset.sum_add_distrib, Finset.sum_ite_eq', member, if_true]
    ring
  · simp only [fop, signed, FOperator.assignEffect, LinearNumericCondition.eval, reduceCtorEq,
      ne_eq, not_false_eq_true, true_and, if_true, add_mul, ite_mul, one_mul, zero_mul, neg_mul,
      Finset.sum_add_distrib, Finset.sum_ite_eq', Finset.sum_neg_distrib, member]
    ring

/-- The slots that a variable gets from its first effect describe what the effect does. -/
theorem describedValue_addNumericEffect {op : GlobalOperator} {action : Action}
    {effect : AssignEffect} {numericVars : ℕ → ℚ}
    (fresh : SameSlots effect.affVar action (.empty op.cost))
    (regular : task.numericVarTypes effect.affVar = .regular)
    (precise : task.Precise options effect) (unconditional : effect.conditions = [])
    (supported : effect.fop = .assign ∨ effect.fop = .increase ∨ effect.fop = .decrease) :
    task.describedValue (task.addNumericEffect options action effect) numericVars effect.affVar =
      effect.fop.assignEffect (numericVars effect.affVar)
        ((task.artificialVariables effect.assVar).eval task.regularVars numericVars) := by
  have member := mem_regularVars.mpr regular
  have noLinear : action.linearEffects.filter (fun other => other.lhs = effect.affVar) = [] :=
    fresh.linearEffects
  have notAssigned : action.isAssignment effect.affVar = false := fresh.isAssignment
  simp only [addNumericEffect, regular, addRegularEffect, unconditional, List.isEmpty_nil, if_true]
  by_cases isSimple : task.isSimpleEffect options effect
      (task.artificialVariables effect.assVar) = true
  · -- only the constant of the right-hand side is left
    rw [if_pos isSimple]
    simp only [isSimpleEffect, isConstantEffect, Bool.and_eq_true, Bool.not_eq_true',
      decide_eq_true_eq, Bool.or_eq_true] at isSimple
    obtain ⟨⟨noOther, noOwn⟩, changes⟩ := isSimple
    rw [eval_of_no_other_coefficients precise regular noOther, precise.zero _ member noOwn]
    simp only [describedValue, noLinear, List.getLast?_nil, notAssigned, Bool.false_eq_true, if_false,
      Function.update_self]
    cases changes with
    | inl increases => simp [increases, signed, FOperator.assignEffect]
    | inr decreases => simp [decreases, signed, FOperator.assignEffect, sub_eq_add_neg]
  · rw [if_neg isSimple]
    by_cases isAssignment : task.isAssignmentEffect options effect
        (task.artificialVariables effect.assVar) = true
    · -- the old value of the variable cancels out
      rw [if_pos isAssignment]
      simp only [isAssignmentEffect, isConstantEffect, Bool.and_eq_true, Bool.not_eq_true',
        decide_eq_true_eq, Bool.or_eq_true] at isAssignment
      obtain ⟨⟨_, noOther⟩, kinds⟩ := isAssignment
      rw [eval_of_no_other_coefficients precise regular noOther]
      simp only [describedValue, noLinear, List.getLast?_nil, Function.update_self, if_true]
      rcases kinds with (⟨⟨_, noOwn⟩, assigns⟩ | ⟨own, increases⟩) | ⟨own, decreases⟩
      · simp [assigns, signed, FOperator.assignEffect, precise.zero _ member noOwn]
      · simp [increases, signed, FOperator.assignEffect, precise.negOne own]
      · simp [decreases, signed, FOperator.assignEffect, precise.one own]
    · rw [if_neg isAssignment]
      exact describedValue_linear regular supported _

/-! ## The successor -/

theorem applyAssignEffect_other {predecessor current : ℕ → ℚ} {effect : AssignEffect} {var : ℕ}
    (other : effect.affVar ≠ var) :
    task.applyAssignEffect predecessor current effect var = current var := by
  unfold NumericTask.applyAssignEffect
  cases task.numericVarTypes effect.affVar with
  | unknown | constant | derived => rfl
  | instrumentation | regular => exact Function.update_of_ne (Ne.symm other) _ _

theorem applyAssignEffect_unwritten {predecessor current : ℕ → ℚ} {effect : AssignEffect} {var : ℕ}
    (notInstrumentation : task.numericVarTypes var ≠ .instrumentation)
    (notRegular : task.numericVarTypes var ≠ .regular) :
    task.applyAssignEffect predecessor current effect var = current var := by
  by_cases own : effect.affVar = var
  · subst own
    unfold NumericTask.applyAssignEffect
    cases type : task.numericVarTypes effect.affVar with
    | unknown | constant | derived => rfl
    | instrumentation => exact absurd type notInstrumentation
    | regular => exact absurd type notRegular
  · exact applyAssignEffect_other own

theorem applyAssignEffect_own {predecessor current : ℕ → ℚ} {effect : AssignEffect}
    (regular : task.numericVarTypes effect.affVar = .regular)
    (unwritten : ∀ var, task.numericVarTypes var ≠ .instrumentation →
      task.numericVarTypes var ≠ .regular → current var = predecessor var)
    (linear : task.isLinear effect.assVar = true) :
    task.applyAssignEffect predecessor current effect effect.affVar =
      effect.fop.assignEffect (current effect.affVar) (predecessor effect.assVar) := by
  have assigned : task.assignedValue predecessor current effect = predecessor effect.assVar := by
    unfold NumericTask.assignedValue
    split
    case isTrue => rfl
    case isFalse notRegular => exact unwritten _ (isLinear_not_instrumentation linear) notRegular
  unfold NumericTask.applyAssignEffect
  rw [assigned]
  simp [regular]

/-! ## Operators -/

/-- What the claim takes for granted of an operator. -/
structure Supported (op : GlobalOperator) : Prop where
  unconditional : ∀ effect ∈ op.assignEffects, effect.conditions = []
  operators : ∀ effect ∈ op.assignEffects,
    effect.fop = .assign ∨ effect.fop = .increase ∨ effect.fop = .decrease

/-- The slots suffice for the effects: none is overwritten, and the right-hand sides are expressed
exactly. -/
structure SlotsSuffice (task : ProxyTask) (options : ProxyOptions) (op : GlobalOperator) : Prop where
  once : ∀ var, task.numericVarTypes var = .regular →
    (op.assignEffects.filter fun effect => effect.affVar = var).length ≤ 1
  linear : ∀ effect ∈ op.assignEffects, task.numericVarTypes effect.affVar = .regular →
    task.isLinear effect.assVar = true
  precise : ∀ effect ∈ op.assignEffects, task.numericVarTypes effect.affVar = .regular →
    task.Precise options effect

theorem foldl_other {var : ℕ} {predecessor : ℕ → ℚ} {effects : List AssignEffect}
    (others : ∀ effect ∈ effects, effect.affVar ≠ var) (current : ℕ → ℚ) (action : Action) :
    effects.foldl (task.applyAssignEffect predecessor) current var = current var ∧
      SameSlots var (effects.foldl (task.addNumericEffect options) action) action := by
  induction effects generalizing current action with
  | nil => exact ⟨rfl, rfl, rfl, rfl, rfl⟩
  | cons effect effects inductionHypothesis =>
    rw [List.forall_mem_cons] at others
    obtain ⟨value, slots⟩ := inductionHypothesis others.2
      (task.applyAssignEffect predecessor current effect)
      (task.addNumericEffect options action effect)
    have same : SameSlots var (task.addNumericEffect options action effect) action :=
      addNumericEffect_other options action others.1
    refine ⟨value.trans (applyAssignEffect_other others.1), ?_⟩
    exact ⟨slots.effList.trans same.effList, slots.isAssignment.trans same.isAssignment,
      slots.assignList.trans same.assignList, slots.linearEffects.trans same.linearEffects⟩

/-- Both folds over effects of which at most one changes the variable. -/
theorem foldl_described {op : GlobalOperator} (supported : Supported op)
    (suffice : task.SlotsSuffice options op) (stored : ℕ → ℚ) {var : ℕ}
    (regular : task.numericVarTypes var = .regular) (effects : List AssignEffect)
    (members : ∀ effect ∈ effects, effect ∈ op.assignEffects)
    (once : (effects.filter fun effect => effect.affVar = var).length ≤ 1)
    {current : ℕ → ℚ} {action : Action} (unchanged : current var = task.getNumericVars stored var)
    (unwritten : ∀ other, task.numericVarTypes other ≠ .instrumentation →
      task.numericVarTypes other ≠ .regular → current other = task.getNumericVars stored other)
    (fresh : SameSlots var action (.empty op.cost)) :
    task.describedValue (effects.foldl (task.addNumericEffect options) action)
        (task.getNumericVars stored) var =
      effects.foldl (task.applyAssignEffect (task.getNumericVars stored)) current var := by
  induction effects generalizing current action with
  | nil =>
    rw [List.foldl_nil, List.foldl_nil, fresh.describedValue, unchanged]
    simp [describedValue, Action.empty]
  | cons effect effects inductionHypothesis =>
    rw [List.forall_mem_cons] at members
    rw [List.foldl_cons, List.foldl_cons]
    by_cases own : effect.affVar = var
    · subst own
      -- the effect is the only one, so the rest of both folds passes the variable by
      have others : ∀ other ∈ effects, other.affVar ≠ effect.affVar := by
        intro other isOther same
        have present : other ∈ effects.filter fun other => other.affVar = effect.affVar :=
          List.mem_filter.mpr ⟨isOther, by simpa using same⟩
        simp only [decide_true, List.filter_cons_of_pos, List.length_cons] at once
        have positive := List.length_pos_of_mem present
        omega
      have isLinear := suffice.linear effect members.1 regular
      obtain ⟨value, slots⟩ := foldl_other others
        (task.applyAssignEffect (task.getNumericVars stored) current effect)
        (task.addNumericEffect options action effect)
      rw [slots.describedValue, value, applyAssignEffect_own regular unwritten isLinear,
        describedValue_addNumericEffect fresh regular (suffice.precise effect members.1 regular)
          (supported.unconditional effect members.1) (supported.operators effect members.1),
        artificialVariables_eval stored isLinear, unchanged]
    · rw [List.filter_cons_of_neg (by simpa using own)] at once
      have same : SameSlots var (task.addNumericEffect options action effect) action :=
        addNumericEffect_other options action own
      refine inductionHypothesis members.2 once ?_ ?_ ?_
      · rw [applyAssignEffect_other own, unchanged]
      · intro other notInstrumentation notRegular
        rw [applyAssignEffect_unwritten notInstrumentation notRegular,
          unwritten other notInstrumentation notRegular]
      · exact ⟨same.effList.trans fresh.effList, same.isAssignment.trans fresh.isAssignment,
          same.assignList.trans fresh.assignList, same.linearEffects.trans fresh.linearEffects⟩

/-- Numeric variables 0 and 1 are the levels of two tanks, 2 and 3 the constants 1 and 2, and 4 is the
second level raised by the constant 2. -/
def tankTask : ProxyTask where
  numericVarTypes := fun var =>
    if var < 2 then .regular else if var < 4 then .constant else .derived
  assAxioms := [{ affectedVariable := 4, op := .sum, varLhs := 1, varRhs := 3 }]
  assAxioms_derived := by simp
  numericVarCount := 5
  initialStateNumeric := fun var => if var = 2 then 1 else if var = 3 then 2 else 0
  regular_lt_count := by
    intro var regular
    by_contra above
    have notTank : ¬ var < 2 := by omega
    have notConstant : ¬ var < 4 := by omega
    simp [notTank, notConstant] at regular

def tankOptions : ProxyOptions :=
  { precision := 1 / 1000000, separateConstantAssignment := false }

def tankOperator (assignEffects : List AssignEffect) : GlobalOperator :=
  { preconditions := [], effects := [], assignEffects := assignEffects, name := "pump", cost := 1 }

def pump : GlobalOperator :=
  tankOperator [.make [] 0 .increase 4, .make [] 1 .decrease 2]

end ProxyTask

end CutPlan.Search
