import CutPlan.Lib.ExtendedNumber
import CutPlan.Search.BoundStages

/-! # Static bounds

`calculates_bounds_numeric_variables` caps a variable by the last single-variable precondition of each
action that changes it, and `calculates_small_m` sums the bounds up to a bound of each condition.
-/

namespace CutPlan.Search

open CutPlan.Lib CutPlan.Sas

/-- The numeric task with its conditions and the number that stands for infinity. -/
structure StaticTask extends BoundTask where
  conditions : List LinearNumericCondition
  infinity : ℚ
  infinity_pos : 0 < infinity

/-- Whether no other variable has a coefficient above the precision, which is read as a truth value. -/
def LinearNumericCondition.simpleCondition (count : ℕ) (condition : LinearNumericCondition) (v : ℕ)
    (precision : Bool) : Bool :=
  (List.range count).all fun other =>
    other = v || !decide ((if precision then 1 else 0) < |condition.coefficients other|)

namespace StaticTask

variable (task : StaticTask)

/-! ## Bounds of variables -/

/-- Whether the loop over the preconditions of an action takes the condition for a cap. -/
def isCap (var op : ℕ) (condition : BoundCondition) : Bool :=
  condition.simpleCondition task.numericVariableCount var (decide (task.precision ≠ 0)) &&
    !decide (0 < condition.coefficients var * (task.actions op).effList var)

/-- The bound of the action, unless there is none: a later cap replaces the earlier ones. -/
def boundForAction (var op : ℕ) : Option ExtendedNumber :=
  (task.actions op).numList.foldl
    (fun bound condition =>
      if task.isCap var op condition then
        some ((ExtendedNumber.divide (-condition.constant) (condition.coefficients var)).add
          (.finite ((task.actions op).effList var)))
      else bound)
    none

/-- The side on which the action changes the bound. -/
def changedSide (var op : ℕ) : Side :=
  if 0 < (task.actions op).effList var then .upper else .lower

def infinite (side : Side) : ExtendedNumber := .finite (side.signed task.infinity)

def updateBound (var : ℕ) (bounds : Side → ExtendedNumber) (op : ℕ) : Side → ExtendedNumber :=
  if |(task.actions op).effList var| < task.precision then bounds
  else
    let side := task.changedSide var op
    Function.update bounds side <|
      match task.boundForAction var op with
      | some bound => ExtendedNumber.widen side bound (bounds side)
      | none => task.infinite side

/-- The bounds of a variable, which start from its initial value. -/
def variableBounds (initial : ℕ → ℚ) (var : ℕ) : Side → ExtendedNumber :=
  (List.range task.actionCount).foldl (task.updateBound var) fun _ => .finite (initial var)

/-! ## Bounds of conditions -/

/-- The loop over the variables, which ends at the first one without a bound. -/
def addLowerBounds (bounds : ℕ → Side → ExtendedNumber) (condition : LinearNumericCondition) :
    List ℕ → ExtendedNumber → ExtendedNumber
  | [], lower => lower
  | var :: vars, lower =>
    let w := condition.coefficients var
    if task.precision ≤ w then
      if (task.infinite .lower).lt (bounds var .lower) then
        addLowerBounds bounds condition vars (lower.add (.scale w (bounds var .lower)))
      else task.infinite .lower
    else if w ≤ -task.precision then
      if (bounds var .upper).lt (task.infinite .upper) then
        addLowerBounds bounds condition vars (lower.add (.scale w (bounds var .upper)))
      else task.infinite .lower
    else addLowerBounds bounds condition vars lower

def smallM (initial : ℕ → ℚ) (condition : LinearNumericCondition) : ExtendedNumber :=
  task.addLowerBounds (task.variableBounds initial) condition (List.range task.numericVariableCount)
    (.finite condition.constant)

/-! ## What the bounds rely on -/

/-- All numeric effects are unconditional changes by a constant, one for each variable and action. -/
def SimpleEffects : Prop :=
  ∀ op < task.actionCount, (task.actions op).linearEffects = [] ∧
    (task.actions op).conditionalEffList = [] ∧ (task.actions op).conditionalAssignList = [] ∧
    ∀ var, (task.actions op).isAssignment var = false

/-- The bound stands for infinity, or it is one. -/
def BoundHolds (side : Side) (bound : ExtendedNumber) (value : ℚ) : Prop :=
  bound = task.infinite side ∨ bound.Bounds side value

structure SoundBounds {State : Type} (runs : NumericRuns task.toBoundTask State) : Prop where
  bounds : ∀ state, runs.Reachable state → ∀ var < task.numericVariableCount, ∀ side,
    task.BoundHolds side (task.variableBounds (runs.numericVars runs.initialState) var side)
      (runs.numericVars state var)
  conditions : ∀ state, runs.Reachable state → ∀ condition ∈ task.conditions,
    task.BoundHolds .lower (task.smallM (runs.numericVars runs.initialState) condition)
      (condition.eval (Finset.range task.numericVariableCount) (runs.numericVars state))

/-- The last cap of an action is one: it has a coefficient of the variable and of no other. -/
def CapsVariable (var op : ℕ) : Prop :=
  ∀ condition ∈ ((task.actions op).numList.filter (task.isCap var op)).getLast?,
    condition.coefficients var ≠ 0 ∧
      ∀ other < task.numericVariableCount, other ≠ var → condition.coefficients other = 0

/-- The condition on the task: changes and coefficients are zero or reach the precision, last caps are
caps, and where an action is not capped no other one has a cap beyond infinity. -/
structure WellBounded : Prop where
  effects : ∀ op < task.actionCount, ∀ var < task.numericVariableCount,
    Representable task.precision ((task.actions op).effList var)
  caps : ∀ op < task.actionCount, ∀ var < task.numericVariableCount,
    task.precision ≤ |(task.actions op).effList var| → task.CapsVariable var op
  coefficients : ∀ condition ∈ task.conditions, ∀ var < task.numericVariableCount,
    Representable task.precision (condition.coefficients var)
  uncapped : ∀ op < task.actionCount, ∀ other < task.actionCount,
    ∀ var < task.numericVariableCount, task.precision ≤ |(task.actions op).effList var| →
    task.precision ≤ |(task.actions other).effList var| →
    task.changedSide var op = task.changedSide var other → task.boundForAction var other = none →
    ∀ limit, task.boundForAction var op = some (.finite limit) →
      (task.changedSide var op).Bounds ((task.changedSide var op).signed task.infinity) limit

variable {task}

/-! ## Caps -/

theorem boundForAction_eq (var op : ℕ) :
    task.boundForAction var op =
      (((task.actions op).numList.filter (task.isCap var op)).getLast?).map fun condition =>
        (ExtendedNumber.divide (-condition.constant) (condition.coefficients var)).add
          (.finite ((task.actions op).effList var)) := by
  unfold boundForAction
  induction (task.actions op).numList using List.reverseRecOn with
  | nil => rfl
  | append_singleton conditions condition inductionHypothesis =>
    rw [List.foldl_append, List.foldl_cons, List.foldl_nil, List.filter_append, inductionHypothesis]
    cases taken : task.isCap var op condition with
    | true => simp [taken]
    | false => simp [taken]

/-- A cap that is one bounds the variable after the action. -/
theorem bound_of_cap {var op : ℕ} (within : var < task.numericVariableCount)
    (changes : task.precision ≤ |(task.actions op).effList var|) (caps : task.CapsVariable var op)
    {bound : ExtendedNumber} (isBound : task.boundForAction var op = some bound)
    {numericVars : ℕ → ℚ}
    (holds : ∀ condition ∈ (task.actions op).numList,
      condition.Holds task.numericVariableCount numericVars) :
    ∃ limit, bound = .finite limit ∧
      (task.changedSide var op).Bounds limit (numericVars var + (task.actions op).effList var) := by
  rw [boundForAction_eq, Option.map_eq_some_iff] at isBound
  obtain ⟨condition, isLast, rfl⟩ := isBound
  obtain ⟨nonzero, others⟩ := caps condition isLast
  have member := List.mem_filter.mp (List.mem_of_getLast? isLast)
  rw [ExtendedNumber.divide_of_ne nonzero, ExtendedNumber.add_finite]
  refine ⟨_, rfl, ?_⟩
  have opposes : condition.coefficients var * (task.actions op).effList var ≤ 0 := by
    have taken := member.2
    simp only [isCap, Bool.and_eq_true, Bool.not_eq_true', decide_eq_false_iff_not, not_lt] at taken
    exact taken.2
  have value : 0 ≤ condition.coefficients var * numericVars var + condition.constant := by
    have weak : 0 ≤ condition.eval (Finset.range task.numericVariableCount) numericVars := by
      have strictOrWeak := holds condition member.1
      unfold BoundCondition.Holds at strictOrWeak
      split at strictOrWeak
      · exact strictOrWeak.le
      · exact strictOrWeak
    unfold LinearNumericCondition.eval at weak
    rwa [Finset.sum_eq_single var (fun other isOther different => by
      rw [others other (Finset.mem_range.mp isOther) different, zero_mul])
      (fun absent => absurd (Finset.mem_range.mpr within) absent)] at weak
  have effNonzero : (task.actions op).effList var ≠ 0 := by
    intro zero
    rw [zero, abs_zero] at changes
    exact absurd task.precision_pos (not_lt.mpr changes)
  apply Side.Bounds.add _ (Side.Bounds.rfl _ _)
  unfold changedSide
  split
  · rename_i positive
    have negative : condition.coefficients var < 0 := by
      by_contra notNegative
      have strict : 0 < condition.coefficients var := lt_of_le_of_ne (not_lt.mp notNegative) nonzero.symm
      exact absurd (mul_pos strict positive) (not_lt.mpr opposes)
    change numericVars var ≤ -condition.constant / condition.coefficients var
    rw [le_div_iff_of_neg negative]
    linarith
  · rename_i notPositive
    have effNegative : (task.actions op).effList var < 0 := lt_of_le_of_ne (not_lt.mp notPositive) effNonzero
    have positive : 0 < condition.coefficients var := by
      by_contra notPositive
      have strict : condition.coefficients var < 0 := lt_of_le_of_ne (not_lt.mp notPositive) nonzero
      exact absurd (mul_pos_of_neg_of_neg strict effNegative) (not_lt.mpr opposes)
    change -condition.constant / condition.coefficients var ≤ numericVars var
    rw [div_le_iff₀ positive]
    linarith

/-! ## Bounds of variables in runs -/

section Runs

variable {State : Type} {runs : NumericRuns task.toBoundTask State} {var : ℕ} {side : Side}

/-- The action moves the variable towards the side. -/
def Moves (task : StaticTask) (var : ℕ) (side : Side) (op : ℕ) : Prop :=
  task.precision ≤ |(task.actions op).effList var| ∧ task.changedSide var op = side

/-- One of the actions has no cap. -/
def Uncapped (task : StaticTask) (var : ℕ) (side : Side) (count : ℕ) (bound : ExtendedNumber) : Prop :=
  bound = task.infinite side ∧
    ∃ op < count, task.Moves var side op ∧ task.boundForAction var op = none

/-- The number bounds the initial value and what each of the actions leads to. -/
def Capped (task : StaticTask) (var : ℕ) (side : Side) (initial : ℚ) (count : ℕ)
    (bound : ExtendedNumber) : Prop :=
  ∃ limit, bound = .finite limit ∧ side.Bounds limit initial ∧
    ∀ op < count, task.Moves var side op →
      ∃ own, task.boundForAction var op = some (.finite own) ∧ side.Bounds limit own

theorem exists_boundForAction {op : ℕ} (caps : task.CapsVariable var op) :
    task.boundForAction var op = none ∨ ∃ own, task.boundForAction var op = some (.finite own) := by
  rw [boundForAction_eq]
  cases isLast : ((task.actions op).numList.filter (task.isCap var op)).getLast? with
  | none => exact .inl rfl
  | some condition =>
    right
    have nonzero := (caps condition isLast).1
    rw [Option.map_some, ExtendedNumber.divide_of_ne nonzero, ExtendedNumber.add_finite]
    exact ⟨_, rfl⟩

variable (side) in
theorem WellBounded.capped_or_uncapped (bounded : task.WellBounded)
    (within : var < task.numericVariableCount) (initial : ℕ → ℚ) {count : ℕ}
    (le : count ≤ task.actionCount) :
    task.Uncapped var side count ((List.range count).foldl (task.updateBound var)
        (fun _ => .finite (initial var)) side) ∨
      task.Capped var side (initial var) count ((List.range count).foldl (task.updateBound var)
        (fun _ => .finite (initial var)) side) := by
  induction count with
  | zero =>
    right
    exact ⟨initial var, rfl, Side.Bounds.rfl _ _, fun op lt => absurd lt (Nat.not_lt_zero op)⟩
  | succ op inductionHypothesis =>
    have isAction : op < task.actionCount := le
    rw [List.range_succ, List.foldl_append, List.foldl_cons, List.foldl_nil]
    have before := inductionHypothesis (Nat.le_of_succ_le le)
    set bounds := (List.range op).foldl (task.updateBound var) fun _ => .finite (initial var)
    by_cases moves : task.Moves var side op
    · obtain ⟨changes, rfl⟩ := moves
      have updated : task.updateBound var bounds op (task.changedSide var op) =
          match task.boundForAction var op with
          | some bound => ExtendedNumber.widen (task.changedSide var op) bound
            (bounds (task.changedSide var op))
          | none => task.infinite (task.changedSide var op) := by
        rw [updateBound, if_neg (not_lt.mpr changes), Function.update_self]
      rw [updated]
      obtain noCap | ⟨own, isCap⟩ := exists_boundForAction (bounded.caps op isAction var within changes)
      · left
        rw [noCap]
        exact ⟨rfl, op, Nat.lt_succ_self op, ⟨changes, rfl⟩, noCap⟩
      · rw [isCap]
        obtain ⟨isInfinite, other, lt, ⟨otherChanges, sameSide⟩, noCap⟩ |
          ⟨limit, isLimit, bounds_initial, bounds_caps⟩ := before
        · -- infinity is not exceeded by the caps of other actions
          left
          have inside := bounded.uncapped op isAction other (lt.trans isAction) var within changes
            otherChanges sameSide.symm noCap own isCap
          have unchanged : ExtendedNumber.widen (task.changedSide var op) (.finite own)
              (bounds (task.changedSide var op)) = task.infinite (task.changedSide var op) := by
            rw [isInfinite, infinite, ExtendedNumber.widen_finite, Side.widen_eq_right inside]
          exact ⟨unchanged, other, Nat.lt_succ_of_lt lt, ⟨otherChanges, sameSide⟩, noCap⟩
        · right
          refine ⟨(task.changedSide var op).widen own limit, ?_, bounds_initial.widen_right own, ?_⟩
          · simp only [isLimit, ExtendedNumber.widen_finite]
          · intro other lt movesOther
            obtain isBefore | rfl := Nat.lt_succ_iff_lt_or_eq.mp lt
            · obtain ⟨otherOwn, isOther, bounds_other⟩ := bounds_caps other isBefore movesOther
              exact ⟨otherOwn, isOther, bounds_other.widen_right own⟩
            · exact ⟨own, isCap, (Side.Bounds.rfl _ own).widen_left limit⟩
    · -- the bound on this side stays
      have unchanged : task.updateBound var bounds op side = bounds side := by
        unfold updateBound
        split
        · rfl
        · rename_i notSmall
          exact Function.update_of_ne (fun same => moves ⟨not_lt.mp notSmall, same.symm⟩) _ _
      rw [unchanged]
      obtain ⟨isInfinite, other, lt, rest⟩ | ⟨limit, isLimit, bounds_initial, bounds_caps⟩ := before
      · exact .inl ⟨isInfinite, other, Nat.lt_succ_of_lt lt, rest⟩
      · right
        refine ⟨limit, isLimit, bounds_initial, fun other lt movesOther => ?_⟩
        obtain isBefore | rfl := Nat.lt_succ_iff_lt_or_eq.mp lt
        · exact bounds_caps other isBefore movesOther
        · exact absurd movesOther moves

theorem SimpleEffects.newValue (simple : task.SimpleEffects) {op : ℕ} (isAction : op < task.actionCount)
    (count : ℕ) (values : ℕ → ℤ) (numericVars : ℕ → ℚ) (var : ℕ) :
    (task.actions op).newValue count values numericVars var =
      numericVars var + (task.actions op).effList var := by
  obtain ⟨noLinear, noConditional, noAssign, notAssigned⟩ := simple op isAction
  simp [BoundAction.newValue, noLinear, noConditional, noAssign, notAssigned]

/-- A bound that holds before an action still holds after it. -/
theorem Capped.step (bounded : task.WellBounded) (simple : task.SimpleEffects)
    (within : var < task.numericVariableCount) {limit : ℚ}
    (capped : ∀ op < task.actionCount, task.Moves var side op →
      ∃ own, task.boundForAction var op = some (.finite own) ∧ side.Bounds limit own)
    {state successor : State} {op : ℕ} (step : runs.Step state op successor)
    (before : side.Bounds limit (runs.numericVars state var)) :
    side.Bounds limit (runs.numericVars successor var) := by
  have isAction := runs.op_lt step
  rw [runs.effects step var within, simple.newValue isAction]
  by_cases changes : task.precision ≤ |(task.actions op).effList var|
  · by_cases same : task.changedSide var op = side
    · obtain ⟨own, isOwn, bounds_own⟩ := capped op isAction ⟨changes, same⟩
      obtain ⟨found, isFound, reached⟩ := bound_of_cap within changes
        (bounded.caps op isAction var within changes) isOwn (runs.preconditions step)
      cases isFound
      rw [same] at reached
      exact bounds_own.trans reached
    · -- the variable moves away from the bound
      refine before.trans ?_
      unfold changedSide at same
      split at same
      · rename_i positive
        cases side with
        | upper => exact absurd rfl same
        | lower => exact le_add_of_nonneg_right positive.le
      · rename_i notPositive
        cases side with
        | upper => exact add_le_of_nonpos_right (not_lt.mp notPositive)
        | lower => exact absurd rfl same
  · rw [bounded.effects op isAction var within (not_le.mp changes), add_zero]
    exact before

theorem WellBounded.variableBounds_hold (bounded : task.WellBounded) (simple : task.SimpleEffects)
    (within : var < task.numericVariableCount) {state : State} (reachable : runs.Reachable state) :
    task.BoundHolds side (task.variableBounds (runs.numericVars runs.initialState) var side)
      (runs.numericVars state var) := by
  obtain ⟨isInfinite, -⟩ | ⟨limit, isLimit, bounds_initial, capped⟩ :=
    bounded.capped_or_uncapped side within (runs.numericVars runs.initialState) le_rfl
  · exact .inl isInfinite
  · right
    unfold variableBounds
    rw [isLimit]
    change side.Bounds limit _
    induction reachable with
    | refl => exact bounds_initial
    | tail _ step inductionHypothesis =>
      obtain ⟨op, step⟩ := step
      exact Capped.step bounded simple within capped step inductionHypothesis

end Runs

/-! ## Bounds of conditions in runs -/

/-- A bound that is not infinity is a number. -/
theorem BoundHolds.lower_le {bound : ExtendedNumber} {value : ℚ}
    (holds : task.BoundHolds .lower bound value)
    (inside : (task.infinite .lower).lt bound = true) : ∃ limit, bound = .finite limit ∧ limit ≤ value := by
  obtain rfl | bounds := holds
  · simp [infinite, ExtendedNumber.lt] at inside
  · cases bound with
    | finite limit => exact ⟨limit, rfl, bounds⟩
    | notANumber => cases bounds
    | negInfinity => simp [infinite, ExtendedNumber.lt] at inside
    | posInfinity => cases bounds

theorem BoundHolds.le_upper {bound : ExtendedNumber} {value : ℚ}
    (holds : task.BoundHolds .upper bound value)
    (inside : bound.lt (task.infinite .upper) = true) : ∃ limit, bound = .finite limit ∧ value ≤ limit := by
  obtain rfl | bounds := holds
  · simp [infinite, ExtendedNumber.lt] at inside
  · cases bound with
    | finite limit => exact ⟨limit, rfl, bounds⟩
    | notANumber => cases bounds
    | negInfinity => cases bounds
    | posInfinity => simp [infinite, ExtendedNumber.lt] at inside

theorem addLowerBounds_holds {bounds : ℕ → Side → ExtendedNumber} {numericVars : ℕ → ℚ}
    {condition : LinearNumericCondition} {vars : List ℕ}
    (representable : ∀ var ∈ vars, Representable task.precision (condition.coefficients var))
    (hold : ∀ var ∈ vars, ∀ side, task.BoundHolds side (bounds var side) (numericVars var))
    {lower value : ℚ} (le : lower ≤ value) :
    task.BoundHolds .lower (task.addLowerBounds bounds condition vars (.finite lower))
      (value + (vars.map fun var => condition.coefficients var * numericVars var).sum) := by
  induction vars generalizing lower value with
  | nil =>
    right
    change lower ≤ value + 0
    rwa [add_zero]
  | cons var vars inductionHypothesis =>
    have representable_rest := fun other member => representable other (List.mem_cons_of_mem var member)
    have hold_rest := fun other member => hold other (List.mem_cons_of_mem var member)
    rw [List.map_cons, List.sum_cons, ← add_assoc]
    unfold addLowerBounds
    simp only
    split
    · rename_i positive
      split
      · rename_i inside
        obtain ⟨limit, isLimit, limit_le⟩ := (hold var List.mem_cons_self .lower).lower_le inside
        rw [isLimit]
        have nonneg : 0 ≤ condition.coefficients var := task.precision_pos.le.trans positive
        exact inductionHypothesis representable_rest hold_rest
          (add_le_add le (mul_le_mul_of_nonneg_left limit_le nonneg))
      · exact .inl rfl
    · rename_i notPositive
      split
      · rename_i negative
        split
        · rename_i inside
          obtain ⟨limit, isLimit, le_limit⟩ := (hold var List.mem_cons_self .upper).le_upper inside
          rw [isLimit]
          have nonpos : condition.coefficients var ≤ 0 :=
            negative.trans (neg_nonpos.mpr task.precision_pos.le)
          exact inductionHypothesis representable_rest hold_rest
            (add_le_add le (mul_le_mul_of_nonpos_left le_limit nonpos))
        · exact .inl rfl
      · rename_i notNegative
        have zero : condition.coefficients var = 0 := by
          apply representable var List.mem_cons_self
          exact abs_lt.mpr ⟨not_le.mp notNegative, not_le.mp notPositive⟩
        rw [zero, zero_mul, add_zero]
        exact inductionHypothesis representable_rest hold_rest le

theorem LinearNumericCondition.eval_range (condition : LinearNumericCondition) (count : ℕ)
    (numericVars : ℕ → ℚ) :
    condition.eval (Finset.range count) numericVars = condition.constant +
      ((List.range count).map fun var => condition.coefficients var * numericVars var).sum := by
  rw [LinearNumericCondition.eval, add_comm, Finset.sum_range]
  rw [← List.sum_ofFn, List.ofFn_eq_map, ← List.map_coe_finRange_eq_range, List.map_map]
  rfl

theorem staticBounds_sound {State : Type} (runs : NumericRuns task.toBoundTask State)
    (simple : task.SimpleEffects) (bounded : task.WellBounded) : task.SoundBounds runs where
  bounds := fun _ reachable _ within _ => bounded.variableBounds_hold simple within reachable
  conditions := by
    intro state reachable condition member
    rw [LinearNumericCondition.eval_range]
    apply addLowerBounds_holds _ _ le_rfl
    · intro var inRange
      exact bounded.coefficients condition member var (List.mem_range.mp inRange)
    · intro var inRange side
      exact bounded.variableBounds_hold simple (List.mem_range.mp inRange) reachable

/-! ## Small tasks -/

/-- Adds 1 to the first variable if the condition holds. -/
def incrementTask (condition : BoundCondition) : StaticTask where
  numericVariableCount := 2
  actionCount := 1
  actions := fun _ => { Action.empty 1 with effList := weights 1 0 0, numList := [condition] }
  precision := 1 / 1000000
  precision_pos := millionth_pos
  lhs_lt := fun _ _ isEffect => nomatch isEffect
  conditions := [condition.toLinearNumericCondition]
  infinity := 9999999
  infinity_pos := by norm_num

theorem incrementTask_simpleEffects (condition : BoundCondition) :
    (incrementTask condition).SimpleEffects := fun _ _ => ⟨rfl, rfl, rfl, fun _ => rfl⟩

theorem incrementTask_changes {var : ℕ} (changes : (1 : ℚ) / 1000000 ≤ |weights 1 0 0 var|) : var = 0 := by
  by_contra isOther
  have zero : weights 1 0 0 var = 0 := by simp [weights, isOther]
  rw [zero] at changes
  norm_num at changes

/-- The first variable is at most 5. -/
theorem incrementTask_wellBounded :
    (incrementTask (nonnegative (weights (-1) 0 0) 5)).WellBounded where
  effects := by
    show ∀ op < 1, ∀ var < 2, Representable (1 / 1000000) (weights 1 0 0 var)
    decide +kernel
  caps := by
    intro op _ var within changes condition isLast
    have isCondition := List.mem_singleton.mp (List.mem_filter.mp (List.mem_of_getLast? isLast)).1
    subst isCondition
    obtain rfl := incrementTask_changes changes
    show weights (-1) 0 0 0 ≠ 0 ∧ ∀ other < 2, other ≠ 0 → weights (-1) 0 0 other = 0
    decide +kernel
  coefficients := by
    intro condition isCondition
    rw [List.mem_singleton.mp isCondition]
    show ∀ var < 2, Representable (1 / 1000000) (weights (-1) 0 0 var)
    decide +kernel
  uncapped := by
    -- the only action has a cap
    intro op _ other _ var within changes _ _ noCap
    obtain rfl := incrementTask_changes changes
    have isCapped : (incrementTask (nonnegative (weights (-1) 0 0) 5)).boundForAction 0 0 ≠ none := by
      decide +kernel
    exact absurd noCap isCapped

theorem incrementTask_staticBounds :
    (incrementTask (nonnegative (weights (-1) 0 0) 5)).SoundBounds
      (NumericRuns.numericOnly _ (weights 1 100 0)) :=
  staticBounds_sound _ (incrementTask_simpleEffects _) incrementTask_wellBounded

/-- The first variable is at most the second, which is taken for a bound by 0. -/
theorem incrementTask_exceeds :
    (incrementTask (nonnegative (weights (-1) 1 0) 0)).SimpleEffects ∧
      ¬ (incrementTask (nonnegative (weights (-1) 1 0) 0)).SoundBounds
        (NumericRuns.numericOnly _ (weights 1 100 0)) := by
  refine ⟨incrementTask_simpleEffects _, fun sound => ?_⟩
  set task := incrementTask (nonnegative (weights (-1) 1 0) 0)
  have holds : ∀ condition ∈ (task.actions 0).numList,
      condition.Holds task.numericVariableCount (weights 1 100 0) := by
    intro condition isCondition
    rw [List.mem_singleton.mp isCondition]
    show 0 ≤ LinearNumericCondition.eval _ _ _
    decide +kernel
  have reachable : (NumericRuns.numericOnly task.toBoundTask (weights 1 100 0)).Reachable
      ((task.actions 0).newValue task.numericVariableCount (fun _ => 0) (weights 1 100 0)) :=
    .single ⟨0, by decide, holds, rfl⟩
  have bound : task.variableBounds (weights 1 100 0) 0 .upper = .finite 1 := by decide +kernel
  have value : (task.actions 0).newValue task.numericVariableCount (fun _ => 0) (weights 1 100 0) 0 = 2 := by
    decide +kernel
  obtain isInfinite | exceeded := sound.bounds _ reachable 0 (by decide) .upper
  · change task.variableBounds (weights 1 100 0) 0 .upper = _ at isInfinite
    rw [bound] at isInfinite
    exact absurd isInfinite (by decide +kernel)
  · change (task.variableBounds (weights 1 100 0) 0 .upper).Bounds .upper
      ((task.actions 0).newValue task.numericVariableCount (fun _ => 0) (weights 1 100 0) 0) at exceeded
    rw [bound, value] at exceeded
    change (2 : ℚ) ≤ 1 at exceeded
    norm_num at exceeded

end StaticTask

end CutPlan.Search
