import CutPlan.Lib.DecimalPlaces
import CutPlan.Search.BoundStages

/-! # Margins of strict conditions

`calculates_epsilons` takes the least unit of the constant of a condition, of the constants that actions
assign and of the net changes by actions for the margin by which a strict condition is exceeded.
-/

namespace CutPlan.Search

open CutPlan.Lib CutPlan.Sas

structure EpsilonTask extends BoundTask where
  conditions : List LinearNumericCondition
  defaultEpsilon : ℚ

namespace EpsilonTask

variable (task : EpsilonTask)

/-- The loop multiplies by 10 until the number is an integer; it has no result if it never is. -/
def calculatesEpsilon (value : ℚ) : Option ℚ :=
  (decimalPlaces task.precision value).map placeUnit

def minEpsilon (epsilon value : ℚ) : Option ℚ :=
  (task.calculatesEpsilon value).map (min epsilon)

def changesLinearly (condition : LinearNumericCondition) (op : ℕ) : Bool :=
  (task.actions op).linearEffects.any fun effect => task.precision ≤ |condition.coefficients effect.lhs|

def netChange (condition : LinearNumericCondition) (op : ℕ) : ℚ :=
  ∑ var ∈ Finset.range task.numericVariableCount,
    condition.coefficients var * (task.actions op).effList var

/-- The constants that the action assigns, whether or not the condition mentions the variables. -/
def assignedValues (op : ℕ) : List ℚ :=
  ((List.range task.numericVariableCount).filter fun var => (task.actions op).isAssignment var).map
    (task.actions op).assignList

/-- The loop over the actions, which ends at the first one with a linear effect on the condition. -/
def epsilonOfActions (condition : LinearNumericCondition) : List ℕ → ℚ → Option ℚ
  | [], epsilon => some (max epsilon task.defaultEpsilon)
  | op :: ops, epsilon =>
    if task.changesLinearly condition op then some task.defaultEpsilon
    else do
      let afterAssigned ← (task.assignedValues op).foldlM task.minEpsilon epsilon
      let afterNet ← task.minEpsilon afterAssigned (task.netChange condition op)
      epsilonOfActions condition ops afterNet

def calculatesEpsilons (condition : LinearNumericCondition) : Option ℚ :=
  if condition.isStrictlyGreater then do
    let epsilon ← task.calculatesEpsilon condition.constant
    task.epsilonOfActions condition (List.range task.actionCount) epsilon
  else some 0

/-! ## What the margins rely on -/

/-- Effects change variables by constants or assign constants, perhaps under conditions. -/
def SimpleOrAssigned : Prop :=
  ∀ op < task.actionCount, (task.actions op).linearEffects = []

/-- The numbers that the function inspects for the condition. -/
def inspected (condition : LinearNumericCondition) : List ℚ :=
  condition.constant :: (List.range task.actionCount).flatMap fun op =>
    task.assignedValues op ++ [task.netChange condition op]

/-- The number is an integer at the places that the loop finds, and not only close to one. -/
def IsDecimal (value : ℚ) : Prop :=
  ∃ places, decimalPlaces task.precision value = some places ∧
    value ∈ AddSubgroup.zmultiples (placeUnit places)

/-- What the function does not inspect: the contributions of the initial values, of the assigned
constants and of conditional effects, and all that is overwritten where constants are assigned. -/
structure UninspectedFit (start : ℕ → ℚ) (condition : LinearNumericCondition) (unit : ℚ) : Prop where
  initial : (∑ var ∈ Finset.range task.numericVariableCount, condition.coefficients var * start var) ∈
    AddSubgroup.zmultiples unit
  overwritten : ∀ var < task.numericVariableCount,
    (∃ op < task.actionCount, (task.actions op).Assigns var) →
      condition.coefficients var * start var ∈ AddSubgroup.zmultiples unit ∧
      ∀ op < task.actionCount,
        condition.coefficients var * (task.actions op).effList var ∈ AddSubgroup.zmultiples unit
  assigned : ∀ op < task.actionCount, ∀ var < task.numericVariableCount,
    (task.actions op).isAssignment var = true →
      condition.coefficients var * (task.actions op).assignList var ∈ AddSubgroup.zmultiples unit
  conditionallyAssigned : ∀ op < task.actionCount, ∀ effect ∈ (task.actions op).conditionalAssignList,
    condition.coefficients effect.var * effect.value ∈ AddSubgroup.zmultiples unit
  conditionallyChanged : ∀ op < task.actionCount, ∀ effect ∈ (task.actions op).conditionalEffList,
    condition.coefficients effect.var * effect.value ∈ AddSubgroup.zmultiples unit ∧
      condition.coefficients effect.var * (task.actions op).effList effect.var ∈
        AddSubgroup.zmultiples unit

/-- The condition on the task and the initial values. -/
structure MarginsFit (start : ℕ → ℚ) : Prop where
  decimals : ∀ condition ∈ task.conditions, condition.isStrictlyGreater = true →
    ∀ value ∈ task.inspected condition, task.IsDecimal value
  uninspected : ∀ condition ∈ task.conditions, condition.isStrictlyGreater = true →
    ∀ epsilon, task.calculatesEpsilons condition = some epsilon →
      task.UninspectedFit start condition epsilon

variable {task} {condition : LinearNumericCondition}

/-! ## The least unit -/

/-- The unit is that of some places, and the numbers are multiples of it. -/
def Measures (epsilon : ℚ) (values : List ℚ) : Prop :=
  ∃ places, epsilon = placeUnit places ∧ ∀ value ∈ values, value ∈ AddSubgroup.zmultiples epsilon

theorem Measures.minEpsilon {epsilon value : ℚ} {values : List ℚ} (measures : Measures epsilon values)
    (decimal : task.IsDecimal value) :
    ∃ smaller, task.minEpsilon epsilon value = some smaller ∧ Measures smaller (value :: values) := by
  obtain ⟨places, rfl, multiples⟩ := measures
  obtain ⟨own, isOwn, multiple⟩ := decimal
  refine ⟨min (placeUnit places) (placeUnit own), ?_, max places own, ?_, ?_⟩
  · simp [EpsilonTask.minEpsilon, calculatesEpsilon, isOwn]
  · exact (placeUnit_antitone.map_max).symm
  · have isMin : min (placeUnit places) (placeUnit own) = placeUnit (max places own) :=
      (placeUnit_antitone.map_max).symm
    rw [isMin]
    intro other member
    cases List.mem_cons.mp member with
    | inl isValue =>
      rw [isValue]
      exact zmultiples_placeUnit_le (le_max_right places own) multiple
    | inr isOther => exact zmultiples_placeUnit_le (le_max_left places own) (multiples other isOther)

theorem Measures.foldlM (inspected : List ℚ) {epsilon : ℚ} {values : List ℚ} (measures : Measures epsilon values)
    (decimals : ∀ value ∈ inspected, task.IsDecimal value) :
    ∃ smaller, inspected.foldlM task.minEpsilon epsilon = some smaller ∧
      Measures smaller (inspected ++ values) := by
  induction inspected generalizing epsilon values with
  | nil => exact ⟨epsilon, rfl, measures⟩
  | cons value inspected inductionHypothesis =>
    obtain ⟨afterValue, isAfter, measuresAfter⟩ :=
      measures.minEpsilon (decimals value List.mem_cons_self)
    obtain ⟨smaller, isSmaller, places, isUnit, multiples⟩ :=
      inductionHypothesis measuresAfter fun other member => decimals other (List.mem_cons_of_mem value member)
    refine ⟨smaller, ?_, places, isUnit, ?_⟩
    · rw [List.foldlM_cons, isAfter]
      exact isSmaller
    · intro other member
      apply multiples other
      simp only [List.cons_append, List.mem_cons, List.mem_append] at member ⊢
      tauto

theorem SimpleOrAssigned.not_changesLinearly (simple : task.SimpleOrAssigned) {op : ℕ}
    (isAction : op < task.actionCount) : task.changesLinearly condition op = false := by
  rw [changesLinearly, simple op isAction, List.any_nil]

theorem Measures.epsilonOfActions (simple : task.SimpleOrAssigned) (noDefault : task.defaultEpsilon = 0)
    {ops : List ℕ} (areActions : ∀ op ∈ ops, op < task.actionCount) {epsilon : ℚ} {values : List ℚ}
    (measures : Measures epsilon values)
    (decimals : ∀ op ∈ ops, ∀ value ∈ task.assignedValues op ++ [task.netChange condition op],
      task.IsDecimal value) :
    ∃ smaller, task.epsilonOfActions condition ops epsilon = some smaller ∧
      Measures smaller (values ++ ops.map (task.netChange condition)) := by
  induction ops generalizing epsilon values with
  | nil =>
    obtain ⟨places, rfl, multiples⟩ := measures
    refine ⟨placeUnit places, ?_, places, rfl, ?_⟩
    · rw [EpsilonTask.epsilonOfActions, noDefault, max_eq_left (placeUnit_pos places).le]
    · simpa using multiples
  | cons op ops inductionHypothesis =>
    have own := decimals op List.mem_cons_self
    obtain ⟨afterAssigned, isAfterAssigned, measuresAssigned⟩ :=
      measures.foldlM (task.assignedValues op)
        fun value member => own value (List.mem_append_left _ member)
    obtain ⟨afterNet, isAfterNet, measuresNet⟩ :=
      measuresAssigned.minEpsilon (own _ (List.mem_append_right _ (List.mem_singleton_self _)))
    obtain ⟨smaller, isSmaller, places, isUnit, multiples⟩ :=
      inductionHypothesis (fun other member => areActions other (List.mem_cons_of_mem op member))
        measuresNet (fun other member => decimals other (List.mem_cons_of_mem op member))
    refine ⟨smaller, ?_, places, isUnit, ?_⟩
    · rw [EpsilonTask.epsilonOfActions, simple.not_changesLinearly (areActions op List.mem_cons_self)]
      simp [isAfterAssigned, isAfterNet, isSmaller]
    · intro other member
      apply multiples other
      simp only [List.cons_append, List.mem_cons, List.mem_append, List.map_cons] at member ⊢
      tauto

/-- The margin is computed, and the constant and all net changes are multiples of it. -/
theorem MarginsFit.measures {start : ℕ → ℚ} (fit : task.MarginsFit start) (simple : task.SimpleOrAssigned)
    (noDefault : task.defaultEpsilon = 0) (member : condition ∈ task.conditions)
    (strict : condition.isStrictlyGreater = true) :
    ∃ epsilon, task.calculatesEpsilons condition = some epsilon ∧
      Measures epsilon
        (condition.constant :: (List.range task.actionCount).map (task.netChange condition)) := by
  have decimals := fit.decimals condition member strict
  obtain ⟨places, isPlaces, multiple⟩ := decimals condition.constant List.mem_cons_self
  have ofConstant : Measures (placeUnit places) [condition.constant] :=
    ⟨places, rfl, fun value isConstant => (List.mem_singleton.mp isConstant) ▸ multiple⟩
  obtain ⟨epsilon, isEpsilon, measures⟩ := ofConstant.epsilonOfActions simple noDefault
    (fun op inRange => List.mem_range.mp inRange) (fun op inRange value isInspected =>
      decimals value (List.mem_cons_of_mem _ (List.mem_flatMap.mpr ⟨op, inRange, isInspected⟩)))
  refine ⟨epsilon, ?_, measures⟩
  simp [calculatesEpsilons, strict, calculatesEpsilon, isPlaces, isEpsilon]

/-! ## Margins in runs -/

section Runs

variable {State : Type} {runs : NumericRuns task.toBoundTask State} {unit : ℚ}

/-- What the condition amounts to is a multiple of the unit, and so are the contributions of the
variables that actions overwrite. -/
structure OnGrid (task : EpsilonTask) (condition : LinearNumericCondition) (unit : ℚ)
    (numericVars : ℕ → ℚ) : Prop where
  total : (∑ var ∈ Finset.range task.numericVariableCount,
    condition.coefficients var * numericVars var) ∈ AddSubgroup.zmultiples unit
  overwritten : ∀ var < task.numericVariableCount,
    (∃ op < task.actionCount, (task.actions op).Assigns var) →
      condition.coefficients var * numericVars var ∈ AddSubgroup.zmultiples unit

theorem UninspectedFit.onGrid {start : ℕ → ℚ} (fit : task.UninspectedFit start condition unit) :
    OnGrid task condition unit start where
  total := fit.initial
  overwritten := fun var within assigned => (fit.overwritten var within assigned).1

/-- A variable is assigned, or what it changes by is its part of the net change, up to multiples. -/
theorem UninspectedFit.newValue {start : ℕ → ℚ} (fit : task.UninspectedFit start condition unit)
    (simple : task.SimpleOrAssigned) {op : ℕ} (isAction : op < task.actionCount) {var : ℕ}
    (within : var < task.numericVariableCount) (values : ℕ → ℤ) (numericVars : ℕ → ℚ) :
    ((task.actions op).Assigns var ∧
      condition.coefficients var * (task.actions op).newValue task.numericVariableCount values numericVars
        var ∈ AddSubgroup.zmultiples unit) ∨
    condition.coefficients var * (task.actions op).newValue task.numericVariableCount values numericVars
        var - condition.coefficients var * numericVars var -
      condition.coefficients var * (task.actions op).effList var ∈ AddSubgroup.zmultiples unit := by
  unfold BoundAction.newValue
  rw [simple op isAction, List.filter_nil, List.getLast?_nil]
  simp only
  split
  · -- a conditional assignment takes place
    rename_i effect isLast
    left
    obtain ⟨member, own, -⟩ := countP_pos_of_getLast isLast
    simp only [Bool.and_eq_true, decide_eq_true_eq] at own
    have multiple := fit.conditionallyAssigned op isAction effect member
    rw [own.1] at multiple
    exact ⟨.inr ⟨effect, member, own.1⟩, multiple⟩
  · split
    · rename_i assigned
      exact .inl ⟨.inl assigned, fit.assigned op isAction var within assigned⟩
    · right
      split
      · -- a conditional change takes place
        rename_i effect isLast
        obtain ⟨member, own, -⟩ := countP_pos_of_getLast isLast
        simp only [Bool.and_eq_true, decide_eq_true_eq] at own
        obtain ⟨multiple, replaced⟩ := fit.conditionallyChanged op isAction effect member
        rw [own.1] at multiple replaced
        rw [mul_add, add_sub_cancel_left]
        exact sub_mem multiple replaced
      · rw [mul_add, add_sub_cancel_left, sub_self]
        exact zero_mem _

theorem OnGrid.step {start : ℕ → ℚ} (fit : task.UninspectedFit start condition unit)
    (simple : task.SimpleOrAssigned)
    (nets : ∀ op < task.actionCount, task.netChange condition op ∈ AddSubgroup.zmultiples unit)
    {state successor : State} {op : ℕ} (step : runs.Step state op successor)
    (before : OnGrid task condition unit (runs.numericVars state)) :
    OnGrid task condition unit (runs.numericVars successor) := by
  have isAction := runs.op_lt step
  have changes : ∀ var < task.numericVariableCount,
      condition.coefficients var * runs.numericVars successor var -
          condition.coefficients var * runs.numericVars state var -
        condition.coefficients var * (task.actions op).effList var ∈ AddSubgroup.zmultiples unit := by
    intro var within
    rw [runs.effects step var within]
    obtain ⟨assigns, multiple⟩ | change :=
      fit.newValue simple isAction within (runs.values state) (runs.numericVars state)
    · have isAssigned : ∃ op < task.actionCount, (task.actions op).Assigns var := ⟨op, isAction, assigns⟩
      exact sub_mem (sub_mem multiple (before.overwritten var within isAssigned))
        ((fit.overwritten var within isAssigned).2 op isAction)
    · exact change
  constructor
  · have difference := AddSubgroup.sum_mem (AddSubgroup.zmultiples unit)
      fun var inRange => changes var (Finset.mem_range.mp inRange)
    rw [Finset.sum_sub_distrib, Finset.sum_sub_distrib] at difference
    have rebuilt := add_mem (add_mem difference (nets op isAction)) before.total
    unfold netChange at rebuilt
    rwa [sub_add_cancel, sub_add_cancel] at rebuilt
  · intro var within assigned
    have rebuilt := add_mem (add_mem (changes var within) ((fit.overwritten var within assigned).2 op isAction))
      (before.overwritten var within assigned)
    rwa [sub_add_cancel, sub_add_cancel] at rebuilt

theorem OnGrid.of_reachable
    (fit : task.UninspectedFit (runs.numericVars runs.initialState) condition unit)
    (simple : task.SimpleOrAssigned)
    (nets : ∀ op < task.actionCount, task.netChange condition op ∈ AddSubgroup.zmultiples unit)
    {state : State} (reachable : runs.Reachable state) :
    OnGrid task condition unit (runs.numericVars state) := by
  induction reachable with
  | refl => exact fit.onGrid
  | tail _ step inductionHypothesis =>
    obtain ⟨op, step⟩ := step
    exact inductionHypothesis.step fit simple nets step

end Runs

/-! ## A small task -/

/-- Adds a constant to the only variable, which is to be positive. -/
def growTask (change : ℚ) : EpsilonTask where
  numericVariableCount := 1
  actionCount := 1
  actions := fun _ => { Action.empty 1 with effList := weights change 0 0, numList := [] }
  precision := 1 / 1000000
  precision_pos := millionth_pos
  lhs_lt := fun _ _ isEffect => nomatch isEffect
  conditions := [{ coefficients := weights 1 0 0, constant := 0, isStrictlyGreater := true }]
  defaultEpsilon := 0

theorem growTask_simpleOrAssigned (change : ℚ) : (growTask change).SimpleOrAssigned := fun _ _ => rfl

theorem half_mem_tenths : (1 / 2 : ℚ) ∈ AddSubgroup.zmultiples (placeUnit 1) :=
  mem_zmultiples_placeUnit.mpr ⟨5, by norm_num⟩

/-- Steps by a half, from a half. -/
theorem growTask_marginsFit : (growTask (1 / 2)).MarginsFit (weights (1 / 2) 0 0) where
  decimals := by
    intro condition isCondition _ value isInspected
    rw [List.mem_singleton.mp isCondition] at isInspected
    have values : (growTask (1 / 2)).inspected
        { coefficients := weights 1 0 0, constant := 0, isStrictlyGreater := true } = [0, 1 / 2] := by
      decide +kernel
    rw [values] at isInspected
    cases List.mem_pair.mp isInspected with
    | inl isZero => exact ⟨0, by rw [isZero]; decide +kernel, isZero ▸ zero_mem _⟩
    | inr isHalf => exact ⟨1, by rw [isHalf]; decide +kernel, isHalf ▸ half_mem_tenths⟩
  uninspected := by
    intro condition isCondition _ epsilon isEpsilon
    rw [List.mem_singleton.mp isCondition] at isEpsilon ⊢
    have tenth : (growTask (1 / 2)).calculatesEpsilons
        { coefficients := weights 1 0 0, constant := 0, isStrictlyGreater := true } =
          some (placeUnit 1) := by
      decide +kernel
    rw [tenth] at isEpsilon
    cases isEpsilon
    constructor
    · have value : (∑ var ∈ Finset.range (growTask (1 / 2)).numericVariableCount,
          weights 1 0 0 var * weights (1 / 2) 0 0 var) = 1 / 2 := by
        decide +kernel
      rw [value]
      exact half_mem_tenths
    · -- nothing is assigned
      rintro var _ ⟨op, _, assigned | ⟨effect, isEffect, _⟩⟩
      · cases assigned
      · cases isEffect
    · intro op _ var _ assigned
      cases assigned
    · intro op _ effect isEffect
      cases isEffect
    · intro op _ effect isEffect
      cases isEffect

end EpsilonTask

end CutPlan.Search
