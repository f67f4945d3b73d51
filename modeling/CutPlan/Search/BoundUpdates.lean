import CutPlan.Search.BoundSoundness
import Mathlib.Algebra.Order.Field.Basic
import Mathlib.Tactic

/-! # The updates keep the bounds sound

One lemma for each update of `NumericBound`, and the result for all stages of the loop.
-/

namespace CutPlan.Search

open CutPlan.Lib CutPlan.Sas

namespace NumericRuns

variable {task : BoundTask} {State : Type} {runs : NumericRuns task State}

/-! ## Storing a bound -/

theorem refreshPair_bracket {old new : BoundPair ℚ} {value : ℚ} (isOld : old.Bracket value)
    (isNew : new.Bracket value) : (task.refreshPair old new).1.Bracket value := by
  intro side bound isBound
  simp only [BoundTask.refreshPair, BoundTask.refresh] at isBound
  cases newBound : new side with
  | none =>
    rw [newBound] at isBound
    exact isOld side bound isBound
  | some found =>
    rw [newBound] at isBound
    cases oldBound : old side with
    | none =>
      rw [oldBound] at isBound
      exact isNew side bound (newBound.trans isBound)
    | some current =>
      rw [oldBound] at isBound
      simp only at isBound
      split at isBound
      · exact isNew side bound (newBound.trans isBound)
      · exact isOld side bound (oldBound.trans isBound)

theorem forEach_sound {ι : Type} {indices : List ι} {update : BoundTables → ι → BoundTables × Bool}
    (keeps : ∀ tables index, index ∈ indices → runs.Sound tables → runs.Sound (update tables index).1)
    {tables : BoundTables} (sound : runs.Sound tables) :
    runs.Sound (BoundTask.forEach indices update tables).1 := by
  unfold BoundTask.forEach
  exact List.foldlRecOn (motive := fun (state : BoundTables × Bool) => runs.Sound state.1) indices _
    sound fun state isSound index member => keeps state.1 index member isSound

/-! ## Bounds before actions -/

/-- A variable with a weight, if the rest of a sum is at most `rest`. -/
theorem bounds_of_weighted {side : Side} {precision w value rest : ℚ} (positive : 0 < precision)
    (weighs : side.signed w ≤ -precision) (sum : 0 ≤ w * value + rest) :
    side.Bounds (-rest / w) value := by
  cases side with
  | upper =>
    have negative : w < 0 := lt_of_le_of_lt weighs (neg_lt_zero.mpr positive)
    show value ≤ -rest / w
    rw [le_div_iff_of_neg negative]
    linarith [mul_comm w value]
  | lower =>
    have isPositive : 0 < w := by
      have weighs : -w ≤ -precision := weighs
      linarith
    show -rest / w ≤ value
    rw [div_le_iff₀ isPositive]
    linarith [mul_comm w value]

section Step

variable {state successor : State} {op : ℕ}

theorem beforeActionBound_bracket (regular : runs.Regular) {tables : BoundTables}
    (sound : runs.Sound tables) (reachable : runs.Reachable state)
    (step : runs.Step state op successor) {var : ℕ} (within : var < task.numericVariableCount) :
    BoundPair.Bracket (task.beforeActionBound tables var op) (runs.numericVars state var) := by
  intro side bound isBound
  unfold BoundTask.beforeActionBound at isBound
  revert bound
  refine List.foldlRecOn (motive := fun bound => ∀ other, bound = some other →
    side.Bounds other (runs.numericVars state var)) _ _
    (sound.variableBounds state reachable var within side) ?_
  intro bound isBound condition member other isOther
  simp only at isOther
  split at isOther
  · split at isOther
    · rename_i k isRest
      split at isOther
      · rename_i weighs
        rw [Option.some.injEq] at isOther
        rw [← isOther]
        refine Side.Bounds.tightenSome isBound (bounds_of_weighted task.precision_pos weighs ?_)
        have margin := regular.margin reachable step member
        have rest := sumBound_bounds task.precision_pos
          (regular.coefficients.conditions op (runs.op_lt step) condition member)
          (fun other below => sound.beforeActionBounds state op successor reachable step other below)
          isRest
        rw [LinearNumericCondition.eval, sum_eq_sumWithout _ _ within] at margin
        have restLe : condition.constant - condition.epsilon + sumWithout condition.coefficients
          (runs.numericVars state) var task.numericVariableCount ≤ k := rest
        linarith
      · exact isBound other isOther
    · exact isBound other isOther
  · exact isBound other isOther

end Step

theorem updateBeforeActionBounds_sound (regular : runs.Regular) {tables : BoundTables}
    (sound : runs.Sound tables) : runs.Sound (task.updateBeforeActionBounds tables).1 := by
  refine forEach_sound (fun tables index member sound => ?_) sound
  obtain ⟨var, op⟩ := index
  refine ⟨sound.variableBounds, ?_, sound.effectBounds, sound.assignmentBounds⟩
  intro state otherOp successor reachable step other within
  have old := sound.beforeActionBounds state otherOp successor reachable step other within
  simp only
  by_cases sameVar : other = var
  · subst sameVar
    rw [Function.update_self]
    by_cases sameOp : otherOp = op
    · subst sameOp
      rw [Function.update_self]
      exact refreshPair_bracket old (beforeActionBound_bracket regular sound reachable step within)
    · rw [Function.update_of_ne sameOp]
      exact old
  · rw [Function.update_of_ne sameVar]
    exact old

/-! ## Bounds of variables -/

/-- The bound of one action: it has no effect in the direction of the bound or stays below its own. -/
theorem localBound_bounds {side : Side} {effect before assignment : BoundPair ℚ}
    {value result : ℚ} (small : Representable task.precision (result - value))
    (isEffect : effect.Bracket (result - value)) (isBefore : before.Bracket value)
    (isAssignment : assignment.Bracket result) {reached : Option ℚ}
    (isLocal : task.localBound side (effect side) (before side) (assignment side) = some reached) :
    side.Bounds (reached.getD value) result := by
  unfold BoundTask.localBound at isLocal
  have assigned (found : (assignment side).map some = some reached) :
      side.Bounds (reached.getD value) result := by
    obtain ⟨bound, isBound, rfl⟩ := Option.map_eq_some_iff.mp found
    exact isAssignment side bound isBound
  cases effectBound : effect side with
  | none =>
    rw [effectBound] at isLocal
    exact assigned isLocal
  | some increment =>
    rw [effectBound] at isLocal
    simp only at isLocal
    have changes := isEffect side increment effectBound
    split at isLocal
    · rename_i smallIncrement
      rw [Option.some.injEq] at isLocal
      subst isLocal
      -- a change in this direction would have to reach the precision
      have below := lt_of_le_of_lt (Side.bounds_iff.mp changes) smallIncrement
      rw [Side.bounds_iff]
      by_cases zero : result - value = 0
      · rw [sub_eq_zero.mp zero]
        exact le_refl (side.signed value)
      · have large : task.precision ≤ |result - value| := not_lt.mp fun lt => zero (small lt)
        cases side with
        | upper =>
          have below : result - value < task.precision := below
          show result ≤ value
          by_contra greater
          rw [abs_of_pos (by linarith)] at large
          linarith
        | lower =>
          have below : -(result - value) < task.precision := below
          show -result ≤ -value
          by_contra greater
          rw [abs_of_neg (by linarith)] at large
          linarith
    · cases beforeBound : before side with
      | none =>
        rw [beforeBound] at isLocal
        exact assigned isLocal
      | some bound =>
        rw [beforeBound] at isLocal
        have sum : side.Bounds (increment + bound) result := by
          have added := changes.add (isBefore side bound beforeBound)
          rwa [sub_add_cancel] at added
        cases assignmentBound : assignment side with
        | none =>
          rw [assignmentBound, Option.some.injEq] at isLocal
          subst isLocal
          exact sum
        | some assignedBound =>
          rw [assignmentBound, Option.some.injEq] at isLocal
          subst isLocal
          exact sum.tighten (isAssignment side assignedBound assignmentBound)

/-- What the loop over the actions finds bounds where it starts and what each action reaches. -/
theorem foldlM_localBound {side : Side} {found : ℕ → Option (Option ℚ)} {ops : List ℕ}
    {start bound : ℚ}
    (isBound : ops.foldlM
      (fun bound op => do
        let effect ← found op
        return match effect with
          | some reached => side.widen bound reached
          | none => bound) start = some bound) :
    (∀ value, side.Bounds start value → side.Bounds bound value) ∧
      ∀ op ∈ ops, ∃ effect, found op = some effect ∧
        ∀ reached, effect = some reached → ∀ value, side.Bounds reached value →
          side.Bounds bound value := by
  induction ops generalizing start with
  | nil =>
    rw [List.foldlM_nil, Option.pure_def, Option.some.injEq] at isBound
    subst isBound
    simp
  | cons op ops inductionHypothesis =>
    rw [List.foldlM_cons] at isBound
    obtain ⟨next, isNext, isBound⟩ := Option.bind_eq_some_iff.mp isBound
    obtain ⟨effect, isFound, isNext⟩ := Option.bind_eq_some_iff.mp isNext
    obtain ⟨keeps, others⟩ := inductionHypothesis isBound
    rw [Option.pure_def, Option.some.injEq] at isNext
    rw [List.forall_mem_cons]
    cases effect with
    | none =>
      simp only at isNext
      subst isNext
      refine ⟨keeps, ⟨none, isFound, ?_⟩, others⟩
      intro reached impossible
      cases impossible
    | some reached =>
      simp only at isNext
      subst isNext
      refine ⟨fun value starts => keeps value (starts.widen_left reached), ⟨some reached, isFound, ?_⟩,
        others⟩
      intro other same value reaches
      rw [Option.some.injEq] at same
      subst same
      exact keeps value (reaches.widen_right start)

theorem variableBound_bracket (regular : runs.Regular) {tables : BoundTables}
    (sound : runs.Sound tables) {state : State} (reachable : runs.Reachable state) {var : ℕ}
    (within : var < task.numericVariableCount) :
    BoundPair.Bracket
      (task.variableBound (runs.numericVars runs.initialState) tables var)
      (runs.numericVars state var) := by
  intro side bound isBound
  obtain ⟨keeps, reaches⟩ := foldlM_localBound isBound
  induction reachable with
  | refl => exact keeps _ (Side.Bounds.rfl side _)
  | @tail before after reached step inductionHypothesis =>
    obtain ⟨op, step⟩ := step
    obtain ⟨effect, isLocal, bounds⟩ := reaches op (List.mem_range.mpr (runs.op_lt step))
    have isLocalBound := localBound_bounds
      (regular.changes before op after reached step var within)
      (sound.effectBounds before op after reached step var within)
      (sound.beforeActionBounds before op after reached step var within)
      (sound.assignmentBounds before op after reached step var within) isLocal
    cases effect with
    | none => exact inductionHypothesis.trans isLocalBound
    | some reachedBound => exact bounds reachedBound rfl _ isLocalBound

theorem updateVariableBounds_sound (regular : runs.Regular) {tables : BoundTables}
    (sound : runs.Sound tables) :
    runs.Sound
      (task.updateVariableBounds (runs.numericVars runs.initialState) tables).1 := by
  refine forEach_sound (fun tables var _ sound => ?_) sound
  refine ⟨?_, sound.beforeActionBounds, sound.effectBounds, sound.assignmentBounds⟩
  intro state reachable other within
  simp only
  by_cases same : other = var
  · subst same
    rw [Function.update_self]
    intro side bound isBound
    rw [Option.or_eq_some_iff] at isBound
    obtain isNew | ⟨_, isOld⟩ := isBound
    · exact variableBound_bracket regular sound reachable within side bound isNew
    · exact sound.variableBounds state reachable other within side bound isOld
  · rw [Function.update_of_ne same]
    exact sound.variableBounds state reachable other within

/-! ## Bounds of linear effects -/

/-- What the search for a factor has found in the variables it has seen. -/
theorem foldlM_findScale {coefficients : ℕ → ℚ} {condition : BoundCondition} (count : ℕ) {scale : ℚ}
    (found : (List.range count).foldlM
      (fun scale var =>
        if task.precision ≤ |coefficients var| ∧ task.precision ≤ |condition.coefficients var| then
          some (coefficients var / condition.coefficients var)
        else if task.precision ≤ |coefficients var| ∨
            task.precision ≤ |condition.coefficients var| then none
        else some scale) 0 = some scale) :
    (∀ var < count, task.precision ≤ |coefficients var| ↔
        task.precision ≤ |condition.coefficients var|) ∧
      ((∀ var < count, ¬ task.precision ≤ |condition.coefficients var|) ∨
        ∃ var < count, task.precision ≤ |condition.coefficients var| ∧
          scale = coefficients var / condition.coefficients var) := by
  induction count generalizing scale with
  | zero => simp
  | succ count inductionHypothesis =>
    rw [List.range_succ, List.foldlM_append] at found
    obtain ⟨before, isBefore, found⟩ := Option.bind_eq_some_iff.mp found
    obtain ⟨same, isScale⟩ := inductionHypothesis isBefore
    simp only [List.foldlM_cons, List.foldlM_nil, bind_pure] at found
    split at found
    · rename_i both
      rw [Option.some.injEq] at found
      refine ⟨fun var below => ?_, .inr ⟨count, Nat.lt_succ_self _, both.2, found.symm⟩⟩
      by_cases last : var = count
      · rw [last]
        exact ⟨fun _ => both.2, fun _ => both.1⟩
      · exact same var (by omega)
    · split at found
      · cases found
      · rename_i neither
        rw [not_or] at neither
        rw [Option.some.injEq] at found
        refine ⟨fun var below => ?_, ?_⟩
        · by_cases last : var = count
          · rw [last]
            exact ⟨fun large => absurd large neither.1, fun large => absurd large neither.2⟩
          · exact same var (by omega)
        · obtain none_large | ⟨var, below, large, isScale⟩ := isScale
          · refine .inl fun var below => ?_
            by_cases last : var = count
            · rw [last]
              exact neither.2
            · exact none_large var (by omega)
          · exact .inr ⟨var, by omega, large, found ▸ isScale⟩

theorem findScale_scales {coefficients : ℕ → ℚ} {condition : BoundCondition} {scale : ℚ}
    (coefficientsFit : ∀ var < task.numericVariableCount,
      Representable task.precision (coefficients var))
    (conditionFits : ∀ var < task.numericVariableCount,
      Representable task.precision (condition.coefficients var))
    (proportional : SameVariables task.numericVariableCount coefficients condition →
      Proportional task.numericVariableCount coefficients condition)
    (found : task.findScale coefficients condition = some scale) :
    ∀ var < task.numericVariableCount, coefficients var = scale * condition.coefficients var := by
  obtain ⟨same, isScale⟩ := foldlM_findScale _ found
  have zero_iff {coefficient : ℚ} (fits : Representable task.precision coefficient) :
      coefficient = 0 ↔ ¬ task.precision ≤ |coefficient| := by
    constructor
    · rintro rfl
      rw [abs_zero, not_le]
      exact task.precision_pos
    · exact fun small => fits (not_le.mp small)
  obtain ⟨factor, multiple⟩ := proportional fun var below => by
    rw [zero_iff (coefficientsFit var below), zero_iff (conditionFits var below), same var below]
  obtain none_large | ⟨witness, below, large, rfl⟩ := isScale
  · intro var below
    have zero := (zero_iff (conditionFits var below)).mpr (none_large var below)
    rw [multiple var below, zero, mul_zero, mul_zero]
  · intro var varBelow
    have nonzero : condition.coefficients witness ≠ 0 := fun zero =>
      (zero_iff (conditionFits witness below)).mp zero large
    rw [multiple var varBelow, multiple witness below, mul_div_cancel_right₀ factor nonzero]

section Step

variable {state successor : State} {op : ℕ}

/-- A precondition bounds the multiples of its expression. -/
theorem checkCoefficientInPreconditions_bracket (regular : runs.Regular)
    (reachable : runs.Reachable state) (step : runs.Step state op successor) {coefficients : ℕ → ℚ}
    (coefficientsFit : ∀ var < task.numericVariableCount,
      Representable task.precision (coefficients var))
    (proportional : ∀ condition ∈ (task.actions op).numList,
      SameVariables task.numericVariableCount coefficients condition →
        Proportional task.numericVariableCount coefficients condition) :
    BoundPair.Bracket (task.checkCoefficientInPreconditions coefficients op)
      (∑ var ∈ Finset.range task.numericVariableCount,
        coefficients var * runs.numericVars state var) := by
  intro side bound isBound
  unfold BoundTask.checkCoefficientInPreconditions at isBound
  revert bound
  refine List.foldlRecOn (motive := fun bound => ∀ other, bound = some other → side.Bounds other _)
    _ _ (fun other impossible => by cases impossible) ?_
  intro bound isBound condition member other isOther
  split at isOther
  · rename_i scale found
    split at isOther
    · rename_i scales
      rw [Option.some.injEq] at isOther
      rw [← isOther]
      refine Side.Bounds.tightenSome isBound ?_
      have margin := regular.margin reachable step member
      have multiple := findScale_scales coefficientsFit
        (regular.coefficients.conditions op (runs.op_lt step) condition member)
        (proportional condition member) found
      have sum : ∑ var ∈ Finset.range task.numericVariableCount,
            coefficients var * runs.numericVars state var =
          scale * ∑ var ∈ Finset.range task.numericVariableCount,
            condition.coefficients var * runs.numericVars state var := by
        rw [Finset.mul_sum]
        refine Finset.sum_congr rfl fun var isVar => ?_
        rw [multiple var (Finset.mem_range.mp isVar), mul_assoc]
      rw [sum, mul_comm _ scale]
      rw [LinearNumericCondition.eval] at margin
      have positive := task.precision_pos
      cases side with
      | upper =>
        have negative : scale ≤ -task.precision := scales
        exact mul_le_mul_of_nonpos_left (by linarith) (by linarith)
      | lower =>
        have isPositive : -scale ≤ -task.precision := scales
        exact mul_le_mul_of_nonneg_left (by linarith) (by linarith)
    · exact isBound other isOther
  · exact isBound other isOther

theorem withPrecondition_bounds {side : Side} {bound checked : Option ℚ} {constant value : ℚ}
    (isBound : ∀ other, bound = some other → side.Bounds other (value + constant))
    (isChecked : ∀ other, checked = some other → side.Bounds other value) {result : ℚ}
    (isResult : BoundTask.withPrecondition side bound checked constant = some result) :
    side.Bounds result (value + constant) := by
  cases checked with
  | none => exact isBound result isResult
  | some found =>
    rw [BoundTask.withPrecondition, Option.some.injEq] at isResult
    rw [← isResult]
    exact Side.Bounds.tightenSome isBound ((isChecked found rfl).add (Side.Bounds.rfl side constant))

theorem otherTerms_bounds (regular : runs.Regular) {tables : BoundTables} (sound : runs.Sound tables)
    (reachable : runs.Reachable state) (step : runs.Step state op successor) {effect : LinearEffect}
    (member : effect ∈ (task.actions op).linearEffects) {side : Side} {others : ℚ}
    (isOthers : task.otherTerms tables op effect side = some others) :
    side.Bounds others (effect.constant + sumWithout effect.coefficients (runs.numericVars state)
      effect.lhs task.numericVariableCount) :=
  sumBound_bounds task.precision_pos
    (fun var below => (regular.coefficients.effects op (runs.op_lt step) effect member var below).1)
    (fun var below => sound.beforeActionBounds state op successor reachable step var below) isOthers

theorem assignmentBound_bracket (regular : runs.Regular) {tables : BoundTables}
    (sound : runs.Sound tables) (reachable : runs.Reachable state)
    (step : runs.Step state op successor) {effect : LinearEffect}
    (member : effect ∈ (task.actions op).linearEffects) :
    BoundPair.Bracket (task.assignmentBound tables op effect)
      (runs.numericVars successor effect.lhs) := by
  have within := task.lhs_lt op effect member
  have isOp := runs.op_lt step
  have fits := regular.coefficients.effects op isOp effect member
  have checked := checkCoefficientInPreconditions_bracket regular reachable step
    (fun var below => (fits var below).1)
    (fun condition isCondition => regular.coefficients.proportional op isOp effect member condition
      isCondition effect.coefficients (by simp))
  rw [regular.linear_value reachable step member]
  intro side bound isBound
  refine withPrecondition_bounds (fun other isOther => ?_) (checked side) isBound
  obtain ⟨others, isOthers, isOther⟩ := Option.bind_eq_some_iff.mp isOther
  obtain ⟨term, isTerm, isSum⟩ := Option.bind_eq_some_iff.mp isOther
  rw [Option.some.injEq] at isSum
  have sum := (otherTerms_bounds regular sound reachable step member isOthers).add
    (termBound_bounds task.precision_pos (fits effect.lhs within).1
      (sound.beforeActionBounds state op successor reachable step effect.lhs within) isTerm)
  rw [isSum] at sum
  rw [sum_eq_sumWithout _ _ within]
  convert sum using 1
  ring

theorem sumWithout_increment (effect : LinearEffect) (values : ℕ → ℚ) (count : ℕ) :
    sumWithout (BoundTask.incrementCoefficients effect) values effect.lhs count =
      sumWithout effect.coefficients values effect.lhs count := by
  refine Finset.sum_congr rfl fun var _ => ?_
  by_cases own : var = effect.lhs
  · rw [if_pos own, if_pos own]
  · rw [if_neg own, if_neg own, BoundTask.incrementCoefficients, Function.update_of_ne own]

/-- An increment by a multiple of the variable itself, which is no positive one. -/
theorem incrementTerm_bounds {side : Side} {coefficient value bound : ℚ} {bounds : BoundPair ℚ}
    (fits : Representable task.precision coefficient) (notPositive : coefficient ≤ 0)
    (bracket : bounds.Bracket value)
    (isBound : task.incrementTerm side coefficient bounds = some bound) :
    side.Bounds bound (coefficient * value) := by
  unfold BoundTask.incrementTerm at isBound
  split at isBound
  · rename_i small
    rw [Option.some.injEq] at isBound
    rw [fits small, zero_mul, ← isBound]
    exact Side.Bounds.rfl side 0
  · split at isBound
    · rename_i large
      have positive := task.precision_pos
      linarith
    · obtain ⟨variableBound, isVariableBound, rfl⟩ := Option.map_eq_some_iff.mp isBound
      exact (bracket side.opposite _ isVariableBound).mul_of_nonpos notPositive

theorem effectBound_bracket (regular : runs.Regular) {tables : BoundTables}
    (sound : runs.Sound tables) (reachable : runs.Reachable state)
    (step : runs.Step state op successor) {effect : LinearEffect}
    (member : effect ∈ (task.actions op).linearEffects) :
    BoundPair.Bracket (task.effectBound tables op effect)
      (runs.numericVars successor effect.lhs - runs.numericVars state effect.lhs) := by
  have within := task.lhs_lt op effect member
  have isOp := runs.op_lt step
  have fits := regular.coefficients.effects op isOp effect member
  have own := regular.coefficients.own op isOp effect member
  have ownFits := (fits effect.lhs within).2
  have checked := checkCoefficientInPreconditions_bracket regular reachable step
    (fun var below => (fits var below).2)
    (fun condition isCondition => regular.coefficients.proportional op isOp effect member condition
      isCondition (BoundTask.incrementCoefficients effect) (by simp))
  have ownCoefficient : BoundTask.incrementCoefficients effect effect.lhs =
      effect.coefficients effect.lhs - 1 := Function.update_self ..
  have change : runs.numericVars successor effect.lhs - runs.numericVars state effect.lhs =
      (∑ var ∈ Finset.range task.numericVariableCount,
        BoundTask.incrementCoefficients effect var * runs.numericVars state var) + effect.constant := by
    rw [regular.linear_value reachable step member, sum_eq_sumWithout _ _ within,
      sum_eq_sumWithout _ _ within, sumWithout_increment, ownCoefficient]
    ring
  rw [change]
  intro side bound isBound
  refine withPrecondition_bounds (fun other isOther => ?_) (checked side) isBound
  obtain ⟨others, isOthers, isOther⟩ := Option.bind_eq_some_iff.mp isOther
  obtain ⟨term, isTerm, isSum⟩ := Option.bind_eq_some_iff.mp isOther
  rw [Option.some.injEq] at isSum
  rw [ownCoefficient] at ownFits
  have sum := (otherTerms_bounds regular sound reachable step member isOthers).add
    (incrementTerm_bounds ownFits (by linarith)
      (sound.beforeActionBounds state op successor reachable step effect.lhs within) isTerm)
  rw [isSum] at sum
  rw [sum_eq_sumWithout _ _ within, sumWithout_increment, ownCoefficient]
  convert sum using 1
  ring

end Step

/-- A refreshed entry of a table by action and variable. -/
theorem update_entry_bracket {table : ℕ → ℕ → BoundPair ℚ} {op otherOp var otherVar : ℕ}
    {new : BoundPair ℚ} {value : ℚ} (isOld : (table otherOp otherVar).Bracket value)
    (isNew : otherOp = op → otherVar = var → new.Bracket value) :
    (Function.update table op
      (Function.update (table op) var (task.refreshPair (table op var) new).1) otherOp
        otherVar).Bracket value := by
  by_cases sameOp : otherOp = op
  · subst sameOp
    rw [Function.update_self]
    by_cases sameVar : otherVar = var
    · subst sameVar
      rw [Function.update_self]
      exact refreshPair_bracket isOld (isNew rfl rfl)
    · rw [Function.update_of_ne sameVar]
      exact isOld
  · rw [Function.update_of_ne sameOp]
    exact isOld

theorem updateActionBounds_sound (regular : runs.Regular) {tables : BoundTables}
    (sound : runs.Sound tables) : runs.Sound (task.updateActionBounds tables).1 := by
  refine forEach_sound (fun tables index isIndex sound => ?_) sound
  obtain ⟨op, effect⟩ := index
  have member : effect ∈ (task.actions op).linearEffects := by
    obtain ⟨other, _, isPair⟩ := List.mem_flatMap.mp isIndex
    obtain ⟨_, isEffect, same⟩ := List.mem_map.mp isPair
    rw [Prod.mk.injEq] at same
    rw [← same.1, ← same.2]
    exact isEffect
  refine ⟨sound.variableBounds, sound.beforeActionBounds, ?_, ?_⟩
  · intro state otherOp successor reachable step var within
    refine update_entry_bracket (sound.effectBounds state otherOp successor reachable step var within) ?_
    rintro rfl rfl
    exact effectBound_bracket regular sound reachable step member
  · intro state otherOp successor reachable step var within
    refine update_entry_bracket
      (sound.assignmentBounds state otherOp successor reachable step var within) ?_
    rintro rfl rfl
    exact assignmentBound_bracket regular sound reachable step member

end NumericRuns

end CutPlan.Search
