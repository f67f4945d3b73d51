import CutPlan.Lib.TableUpdates
import CutPlan.Search.GlobalOperator
import CutPlan.Search.NumericAbstraction

/-! # Numeric conditions

`build_numeric_conditions` turns every comparison axiom into linear conditions, one for an inequality
and two for an equality, and numbers them; sums of two conditions are added later.
-/

namespace CutPlan.Search

open CutPlan.Lib CutPlan.Sas

structure ComparisonAxiom where
  affectedVariable : ℕ
  op : CompOperator
  varLhs : ℕ
  varRhs : ℕ
  deriving DecidableEq, Repr

structure LogicAxiom where
  conditions : List Condition
  affectedVariable : ℕ
  newValue : ℤ
  deriving DecidableEq, Repr

/-- The numeric task with its axioms and goals.  No rule derives a comparison. -/
structure ConditionTask extends ProxyTask where
  compAxioms : List ComparisonAxiom
  logicAxioms : List LogicAxiom
  defaultAxiomValues : ℕ → ℤ
  goals : List Condition
  redundantConstraints : Bool
  logicAxioms_derive : ∀ rule ∈ logicAxioms, ∀ comparison ∈ compAxioms,
    rule.affectedVariable ≠ comparison.affectedVariable

def LinearNumericCondition.strict (condition : LinearNumericCondition) : LinearNumericCondition :=
  { condition with isStrictlyGreater := true }

/-- A strict condition asks for a positive value. -/
def LinearNumericCondition.HoldsIn (regularVars : Finset ℕ) (numericVars : ℕ → ℚ)
    (condition : LinearNumericCondition) : Prop :=
  if condition.isStrictlyGreater then 0 < condition.eval regularVars numericVars
  else 0 ≤ condition.eval regularVars numericVars

theorem LinearNumericCondition.HoldsIn.nonneg {regularVars : Finset ℕ} {numericVars : ℕ → ℚ}
    {condition : LinearNumericCondition} (holds : condition.HoldsIn regularVars numericVars) :
    0 ≤ condition.eval regularVars numericVars := by
  unfold HoldsIn at holds
  split at holds
  · exact holds.le
  · exact holds

/-- `numeric_conditions` and `numeric_conditions_id`. -/
structure ConditionTable where
  conditions : List LinearNumericCondition
  ids : List (List ℕ)

namespace ConditionTable

def empty : ConditionTable := { conditions := [], ids := [] }

def condition (table : ConditionTable) (number : ℕ) : LinearNumericCondition :=
  table.conditions.getD number .zero

/-- Adds the conditions of a comparison under the next number. -/
def addComparison (table : ConditionTable) (conditions : List LinearNumericCondition) : ConditionTable where
  conditions := table.conditions ++ conditions
  ids := table.ids ++ [List.range' table.conditions.length conditions.length]

/-- Numbers that are there keep their meaning. -/
structure Extends (before after : ConditionTable) : Prop where
  conditions : before.conditions <+: after.conditions
  ids : before.ids <+: after.ids

/-- As many conditions as numbers of comparisons have been added. -/
structure Grows (before after : ConditionTable) : Prop extends Extends before after where
  balance : after.conditions.length + before.ids.length = before.conditions.length + after.ids.length

/-- The comparison with the number has the conditions. -/
def Names (table : ConditionTable) (number : ℕ) (conditions : List LinearNumericCondition) : Prop :=
  ∃ numbers, table.ids[number]? = some numbers ∧
    (∀ own ∈ numbers, own < table.conditions.length) ∧ numbers.map table.condition = conditions

theorem Extends.refl (table : ConditionTable) : Extends table table :=
  ⟨List.prefix_refl _, List.prefix_refl _⟩

theorem Extends.trans {before middle after : ConditionTable} (first : Extends before middle)
    (second : Extends middle after) : Extends before after :=
  ⟨first.conditions.trans second.conditions, first.ids.trans second.ids⟩

theorem Grows.refl (table : ConditionTable) : Grows table table :=
  ⟨.refl table, rfl⟩

theorem Grows.trans {before middle after : ConditionTable} (first : Grows before middle)
    (second : Grows middle after) : Grows before after := by
  refine ⟨first.toExtends.trans second.toExtends, ?_⟩
  have firstBalance := first.balance
  have secondBalance := second.balance
  omega

theorem grows_of_append (table : ConditionTable) (condition : LinearNumericCondition)
    (numbers : List ℕ) :
    Grows table { conditions := table.conditions ++ [condition], ids := table.ids ++ [numbers] } := by
  refine ⟨⟨List.prefix_append _ _, List.prefix_append _ _⟩, ?_⟩
  simp only [List.length_append, List.length_singleton]
  omega

theorem Extends.length_le {before after : ConditionTable} (extension : Extends before after) :
    before.conditions.length ≤ after.conditions.length :=
  extension.conditions.length_le

theorem Extends.condition {before after : ConditionTable} (extension : Extends before after) {number : ℕ}
    (lt : number < before.conditions.length) : after.condition number = before.condition number := by
  obtain ⟨added, isAdded⟩ := extension.conditions
  unfold ConditionTable.condition
  rw [← isAdded, List.getD_eq_getElem?_getD, List.getElem?_append_left lt, List.getD_eq_getElem?_getD]

theorem Extends.names {before after : ConditionTable} (extension : Extends before after) {number : ℕ}
    {conditions : List LinearNumericCondition} (names : before.Names number conditions) :
    after.Names number conditions := by
  obtain ⟨numbers, isNumbers, within, same⟩ := names
  refine ⟨numbers, ?_, fun own member => (within own member).trans_le extension.length_le, ?_⟩
  · obtain ⟨added, isAdded⟩ := extension.ids
    obtain ⟨lt, _⟩ := List.getElem?_eq_some_iff.mp isNumbers
    rw [← isAdded, List.getElem?_append_left lt, isNumbers]
  · rw [← same]
    exact List.map_congr_left fun own member => extension.condition (within own member)

theorem addComparison_extends (table : ConditionTable) (conditions : List LinearNumericCondition) :
    Extends table (table.addComparison conditions) :=
  ⟨List.prefix_append _ _, List.prefix_append _ _⟩

theorem addComparison_names (table : ConditionTable) (conditions : List LinearNumericCondition) :
    (table.addComparison conditions).Names table.ids.length conditions := by
  refine ⟨List.range' table.conditions.length conditions.length, ?_, ?_, ?_⟩
  · simp [addComparison]
  · intro own member
    rw [List.mem_range'_1] at member
    simp [addComparison, member.2]
  · apply List.ext_getElem
    · simp
    · intro index first second
      have within : index < conditions.length := second
      simp [ConditionTable.condition, addComparison, List.getD_eq_getElem?_getD, within]

end ConditionTable

namespace ConditionTask

variable (task : ConditionTask)

/-- No variable has a coefficient. -/
def isEmpty (condition : LinearNumericCondition) : Bool :=
  task.isVariableFree condition

/-- The conditions of a comparison, all of which ask for a value of at least zero. -/
def conditionsOf (comparison : ComparisonAxiom) : List LinearNumericCondition :=
  let left := task.artificialVariables comparison.varLhs
  let right := task.artificialVariables comparison.varRhs
  match comparison.op with
  | .lt => [LinearNumericCondition.strict (right.sub left)]
  | .le => [right.sub left]
  | .eq => [left.sub right, right.sub left]
  | .ge => [left.sub right]
  | .gt => [LinearNumericCondition.strict (left.sub right)]
  | .ue => []

def tableOf (comparisons : List ComparisonAxiom) : ConditionTable :=
  comparisons.foldl (fun table comparison => table.addComparison (task.conditionsOf comparison)) .empty

def buildNumericConditions : ConditionTable := task.tableOf task.compAxioms

/-- `fact_to_axiom_map`: the number of the comparison that the variable stands for, if it does. -/
def factToAxiom : ℕ → Option ℕ :=
  task.compAxioms.zipIdx.foldl
    (fun numbers comparison => Function.update numbers comparison.1.affectedVariable (some comparison.2))
    fun _ => none

/-! ## States -/

/-- The condition is satisfied, strict ones up to equality. -/
def Satisfies (numericVars : ℕ → ℚ) (condition : LinearNumericCondition) : Prop :=
  0 ≤ condition.eval task.regularVars numericVars

/-- The derived values are those that the axioms give: of the arithmetic axioms, of the comparisons (0
stands for true), and of the rules, which change the default value if their conditions hold. -/
structure Evaluated (state : GlobalState) : Prop where
  arithmetic : ∃ stored, state.numericVars = task.getNumericVars stored
  comparisons : ∀ comparison ∈ task.compAxioms, state.values comparison.affectedVariable =
    if comparison.op.eval (state.numericVars comparison.varLhs) (state.numericVars comparison.varRhs)
    then 0 else 1
  rules : ∀ rule ∈ task.logicAxioms,
    state.values rule.affectedVariable ≠ task.defaultAxiomValues rule.affectedVariable →
      ∃ fired ∈ task.logicAxioms, fired.affectedVariable = rule.affectedVariable ∧
        state.values rule.affectedVariable = fired.newValue ∧
        Condition.allHold fired.conditions state.values = true

/-- The operands of the comparison are linear in the regular variables. -/
def IsLinearComparison (comparison : ComparisonAxiom) : Prop :=
  task.isLinear comparison.varLhs = true ∧ task.isLinear comparison.varRhs = true

variable {task}

/-! ## Numbers of comparisons -/

@[simp] theorem tableOf_concat (comparisons : List ComparisonAxiom) (last : ComparisonAxiom) :
    task.tableOf (comparisons ++ [last]) =
      (task.tableOf comparisons).addComparison (task.conditionsOf last) := by
  simp [tableOf]

theorem tableOf_ids_length (comparisons : List ComparisonAxiom) :
    (task.tableOf comparisons).ids.length = comparisons.length := by
  induction comparisons using List.reverseRecOn with
  | nil => rfl
  | append_singleton comparisons last inductionHypothesis =>
    simp [ConditionTable.addComparison, inductionHypothesis]

theorem tableOf_names {comparisons : List ComparisonAxiom} {number : ℕ} {comparison : ComparisonAxiom}
    (isNumber : comparisons[number]? = some comparison) :
    (task.tableOf comparisons).Names number (task.conditionsOf comparison) := by
  induction comparisons using List.reverseRecOn with
  | nil => cases isNumber
  | append_singleton comparisons last inductionHypothesis =>
    rw [tableOf_concat]
    rcases Nat.lt_trichotomy number comparisons.length with lt | rfl | gt
    · rw [List.getElem?_append_left lt] at isNumber
      exact (ConditionTable.addComparison_extends _ _).names (inductionHypothesis isNumber)
    · rw [List.getElem?_concat_length, Option.some.injEq] at isNumber
      rw [← isNumber, ← tableOf_ids_length comparisons]
      exact ConditionTable.addComparison_names _ _
    · rw [List.getElem?_eq_none (by simp; omega)] at isNumber
      cases isNumber

theorem factToAxiom_eq_some {var number : ℕ} (isNumber : task.factToAxiom var = some number) :
    ∃ comparison, task.compAxioms[number]? = some comparison ∧ comparison.affectedVariable = var := by
  unfold factToAxiom at isNumber
  rw [foldl_update_apply (fun comparison : ComparisonAxiom × ℕ => comparison.1.affectedVariable)
    fun comparison => some comparison.2] at isNumber
  split at isNumber
  · rename_i comparison isLast
    cases isNumber
    obtain ⟨member, own⟩ := List.mem_filter.mp (List.mem_of_getLast? isLast)
    exact ⟨comparison.1, List.mem_zipIdx_iff_getElem?.mp member, by simpa using own⟩
  · cases isNumber

theorem buildNumericConditions_names {number : ℕ} {comparison : ComparisonAxiom}
    (isNumber : task.compAxioms[number]? = some comparison) :
    task.buildNumericConditions.Names number (task.conditionsOf comparison) :=
  tableOf_names isNumber

/-! ## Conditions of comparisons -/

theorem conditionsOf_holdsIn {state : GlobalState} (evaluated : task.Evaluated state)
    {comparison : ComparisonAxiom} (linear : task.IsLinearComparison comparison)
    (holds : comparison.op.eval (state.numericVars comparison.varLhs)
      (state.numericVars comparison.varRhs) = true) :
    ∀ condition ∈ task.conditionsOf comparison,
      condition.HoldsIn task.regularVars state.numericVars := by
  obtain ⟨stored, isStored⟩ := evaluated.arithmetic
  have left : (task.artificialVariables comparison.varLhs).eval task.regularVars state.numericVars =
      state.numericVars comparison.varLhs := by
    rw [isStored]
    exact ProxyTask.artificialVariables_eval stored linear.1
  have right : (task.artificialVariables comparison.varRhs).eval task.regularVars state.numericVars =
      state.numericVars comparison.varRhs := by
    rw [isStored]
    exact ProxyTask.artificialVariables_eval stored linear.2
  have difference (first second : LinearNumericCondition) :
      (first.sub second).eval task.regularVars state.numericVars =
        first.eval task.regularVars state.numericVars - second.eval task.regularVars state.numericVars :=
    ProxyTask.eval_sub first second state.numericVars
  have weak (first second : LinearNumericCondition)
      (le : second.eval task.regularVars state.numericVars ≤ first.eval task.regularVars state.numericVars) :
      (first.sub second).HoldsIn task.regularVars state.numericVars := by
    rw [LinearNumericCondition.HoldsIn, if_neg (by simp [LinearNumericCondition.sub]), difference]
    exact sub_nonneg.mpr le
  have strict (first second : LinearNumericCondition)
      (lt : second.eval task.regularVars state.numericVars < first.eval task.regularVars state.numericVars) :
      (LinearNumericCondition.strict (first.sub second)).HoldsIn task.regularVars state.numericVars := by
    change 0 < (first.sub second).eval task.regularVars state.numericVars
    exact (sub_pos.mpr lt).trans_eq (difference first second).symm
  intro condition member
  unfold conditionsOf at member
  cases op : comparison.op <;> simp only [op, CompOperator.eval, decide_eq_true_eq] at member holds
  case lt =>
    rw [List.mem_singleton.mp member]
    exact strict _ _ (by rwa [left, right])
  case le =>
    rw [List.mem_singleton.mp member]
    exact weak _ _ (by rwa [left, right])
  case eq =>
    rcases List.mem_pair.mp member with isFirst | isSecond
    · rw [isFirst]
      exact weak _ _ (by rw [left, right, holds])
    · rw [isSecond]
      exact weak _ _ (by rw [left, right, holds])
  case ge =>
    rw [List.mem_singleton.mp member]
    exact weak _ _ (by rwa [left, right])
  case gt =>
    rw [List.mem_singleton.mp member]
    exact strict _ _ (by rwa [left, right])
  case ue => cases member

/-- The comparison is true if its variable has the value 0, as has any value that is not positive. -/
theorem Evaluated.comparison_holds {state : GlobalState} (evaluated : task.Evaluated state)
    {comparison : ComparisonAxiom} (isAxiom : comparison ∈ task.compAxioms)
    (isTrue : state.values comparison.affectedVariable ≤ 0) :
    comparison.op.eval (state.numericVars comparison.varLhs) (state.numericVars comparison.varRhs) =
      true := by
  have evaluation := evaluated.comparisons comparison isAxiom
  by_contra fails
  rw [if_neg fails] at evaluation
  omega

end ConditionTask

end CutPlan.Search
