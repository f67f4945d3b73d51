import CutPlan.Translate.SimplifiedSuccessors

/-! # Simplification preserves executions

The runs of the simplified task are those of the task, state by state, as far as the conditions of the
numeric effects keep their numbers.
-/

namespace CutPlan.Translate

open CutPlan.Lib CutPlan.Sas VarValueRenaming

namespace SasTask

variable {task simplified : SasTask}

/-! ## The result of the simplification -/

theorem mem_of_applyToOperators {mapping : VarValueRenaming} {ops newOps : List SasOperator}
    (translates : mapping.applyToOperators ops = .ok newOps) {newOp : SasOperator} :
    newOp ∈ newOps ↔ ∃ op ∈ ops, mapping.translateOperator op = .ok (some newOp) := by
  induction ops generalizing newOps with
  | nil =>
    cases translates
    simp
  | cons op ops inductionHypothesis =>
    rw [applyToOperators] at translates
    cases first : mapping.translateOperator op with
    | error stop =>
      rw [first] at translates
      cases translates
    | ok translated =>
      cases rest : mapping.applyToOperators ops with
      | error stop =>
        rw [first, rest] at translates
        cases translates
      | ok others =>
        rw [first, rest] at translates
        cases translates
        rw [List.mem_append, inductionHypothesis rest]
        cases translated <;> simp [first, eq_comm]

theorem Valid.applyToOperators_ok (valid : task.Valid) {ops : List SasOperator}
    (areOps : ∀ op ∈ ops, op ∈ task.operators) :
    ∃ newOps, task.numbering.applyToOperators ops = .ok newOps := by
  induction ops with
  | nil => exact ⟨[], rfl⟩
  | cons op ops inductionHypothesis =>
    rw [List.forall_mem_cons] at areOps
    obtain ⟨newOps, translates⟩ := inductionHypothesis areOps.2
    have first : ∃ newOp, task.numbering.translateOperator op = .ok newOp := by
      obtain ⟨removed, _⟩ | ⟨_, _, _, _, result⟩ := valid.translateOperator_cases areOps.1
      · exact ⟨none, removed⟩
      · rw [result]
        split
        · exact ⟨none, rfl⟩
        · exact ⟨some _, rfl⟩
    obtain ⟨newOp, isNew⟩ := first
    refine ⟨newOp.toList ++ newOps, ?_⟩
    rw [applyToOperators, isNew, translates]
    rfl

/-- The constraint is neither always true nor always false, as the code asserts. -/
structure ConstraintVaries (task : SasTask) : Prop where
  reached : task.Reaches task.globalConstraint.var task.globalConstraint.val
  varies : task.Varies task.globalConstraint.var

theorem ConstraintVaries.translates (constraint : task.ConstraintVaries) (valid : task.Valid) :
    task.numbering.translateGlobalConstraint task.globalConstraint = .ok
      { var := task.newVar task.globalConstraint.var
        val := task.newValue task.globalConstraint.var task.globalConstraint.val } := by
  rw [translateGlobalConstraint, valid.translatePair_varying valid.globalConstraint
    constraint.reached constraint.varies]

theorem Valid.filter_cases (valid : task.Valid) (constraint : task.ConstraintVaries) :
    task.filterUnreachablePropositions = .error .impossible ∧
        (∃ fact ∈ task.goal, ¬ task.Reaches fact.var fact.val) ∨
      task.filterUnreachablePropositions = .error .triviallySolvable ∧
        (∀ fact ∈ task.goal, task.Reaches fact.var fact.val ∧ ¬ task.Varies fact.var) ∨
      ∃ simplified, task.filterUnreachablePropositions = .ok simplified ∧
        task.Simplified simplified := by
  obtain ⟨layers, isLayers, layersSpec⟩ := valid.applyToVariables_ok
  obtain ⟨init, isInit, initSpec⟩ := valid.applyToInit_ok
  obtain ⟨operators, isOperators⟩ := valid.applyToOperators_ok fun _ isOp => isOp
  obtain ⟨axioms, isAxioms⟩ := valid.applyToAxioms_ok fun _ isRule => isRule
  have isCompAxioms := valid.applyToCompAxioms_ok fun _ isRule => isRule
  have isConstraint := constraint.translates valid
  show (task.numbering.applyToTask task = _ ∧ _) ∨ (task.numbering.applyToTask task = _ ∧ _) ∨
    ∃ simplified, task.numbering.applyToTask task = _ ∧ _
  unfold applyToTask applyToGoals
  rw [isLayers, isInit, isConstraint, isOperators, isAxioms, isCompAxioms]
  cases converts : task.numbering.convertPairs task.goal with
  | error stop =>
    obtain ⟨rfl, unreached⟩ := valid.convertPairs_error valid.goal converts
    exact .inl ⟨rfl, unreached⟩
  | ok goal =>
    obtain ⟨reached, isGoal⟩ := valid.convertPairs_ok valid.goal converts
    right
    cases noGoals : goal.isEmpty with
    | true =>
      left
      refine ⟨by simp [noGoals, bind, Except.bind], fun fact member => ⟨reached fact member, ?_⟩⟩
      intro varies
      have isMember := (isGoal _).mpr ⟨fact, member, varies, rfl⟩
      rw [List.isEmpty_iff] at noGoals
      rw [noGoals] at isMember
      cases isMember
    | false =>
      right
      refine ⟨_, by simp only [noGoals, bind, Except.bind, Bool.false_eq_true, if_false]; rfl, ?_⟩
      exact
        { layers := layersSpec
          init := initSpec
          goal := converts
          globalConstraint := isConstraint
          operators := isOperators
          axioms := isAxioms
          compAxioms := isCompAxioms
          numericTypes := rfl
          numericInit := rfl
          numericAxioms := rfl }

/-! ## Reachable states -/

inductive ReachableState (task : SasTask) : Preprocess.State → Prop
  | start : ReachableState task (task.meaning.evaluateAxioms task.meaning.initialState)
  | step {state : Preprocess.State} {op : SasOperator} : ReachableState task state →
      op ∈ task.operators → op.meaning.isApplicable state = true →
      ReachableState task (task.meaning.successor op.meaning state)

/-- All values of the state are reached by the graphs. -/
def Within (task : SasTask) (values : ℕ → ℤ) : Prop :=
  ∀ var < task.ranges.length, task.Reaches var (values var)

theorem Within.update {values : ℕ → ℤ} (within : task.Within values) {var : ℕ} {value : ℤ}
    (reached : task.Reaches var value) : task.Within (Function.update values var value) := by
  intro other isOther
  by_cases same : other = var
  · subst same
    rwa [Function.update_self]
  · rw [Function.update_of_ne same]
    exact within other isOther

theorem Within.evaluateAxioms (valid : task.Valid) {state : Preprocess.State}
    (within : task.Within state.values) :
    task.Within (task.meaning.evaluateAxioms state).values := by
  rw [Preprocess.Task.evaluateAxioms_values]
  have reset : task.Within (task.meaning.resetDerived state).values := by
    intro var isVar
    show task.Reaches var (if (task.layer var).isSome = true then _ else _)
    split
    · exact valid.reaches_init isVar
    · exact within var isVar
  generalize (task.meaning.evaluateAxioms state).numericValues = numericValues
  have compared : task.Within (task.meaning.axiomsFuncComp.foldl
      (Preprocess.Task.compare numericValues) (task.meaning.resetDerived state).values) := by
    refine List.foldlRecOn task.meaning.axiomsFuncComp _ reset fun values valuesWithin rule isRule => ?_
    obtain ⟨sasRule, isSasRule, rfl⟩ := List.mem_map.mp isRule
    obtain ⟨isTrue, isFalse⟩ := valid.reaches_comparison isSasRule
    unfold Preprocess.Task.compare
    split
    · exact valuesWithin.update isTrue
    · exact valuesWithin.update isFalse
  refine List.foldlRecOn _ _ compared fun values valuesWithin layer _ => ?_
  induction task.meaning.axiomsRel.length with
  | zero => exact valuesWithin
  | succ rounds inductionHypothesis =>
    rw [Function.iterate_succ_apply']
    exact valid.applyRules_reached inductionHypothesis layer

theorem Within.successor (valid : task.Valid) {op : SasOperator} (isOp : op ∈ task.operators)
    {state : Preprocess.State} (within : task.Within state.values)
    (applicable : op.meaning.isApplicable state = true) :
    task.Within (task.meaning.successor op.meaning state).values := by
  refine Within.evaluateAxioms valid ?_
  rw [isApplicable_eq_allHold] at applicable
  rw [applyOperator_values]
  refine List.foldlRecOn _ _ within fun values valuesWithin effect isEffect => ?_
  split
  · rename_i fires
    exact valuesWithin.update (valid.reaches_post isOp isEffect within applicable fires)
  · exact valuesWithin

theorem ReachableState.within (valid : task.Valid) {state : Preprocess.State}
    (reachable : task.ReachableState state) : task.Within state.values := by
  induction reachable with
  | start => exact Within.evaluateAxioms valid fun var isVar => valid.reaches_init isVar
  | step _ isOp applicable inductionHypothesis =>
    exact inductionHypothesis.successor valid isOp applicable

theorem ReachableState.evaluated (valid : task.Valid) {state : Preprocess.State}
    (reachable : task.ReachableState state) : task.meaning.evaluateAxioms state = state := by
  cases reachable <;> exact Preprocess.Task.evaluateAxioms_idempotent valid.axiomsDerive _

/-- A removed operator is not applicable or changes nothing. -/
theorem Valid.removed_operator (valid : task.Valid) {op : SasOperator} (isOp : op ∈ task.operators)
    (removed : task.numbering.translateOperator op = .ok none) {state : Preprocess.State}
    (reachable : task.ReachableState state) :
    op.meaning.isApplicable state = false ∨ task.meaning.successor op.meaning state = state := by
  have within := reachable.within valid
  have validOp := valid.operators op isOp
  cases applicable : op.meaning.isApplicable state with
  | false => exact .inl rfl
  | true =>
    right
    rw [isApplicable_eq_allHold] at applicable
    obtain ⟨fact, isFact, unreached⟩ | ⟨never, noNumeric⟩ := valid.translateOperator_none isOp removed
    · simp only [Condition.allHold, List.all_eq_true, decide_eq_true_eq] at applicable
      have isVar := (validOp.applicabilityFacts fact isFact).mem_domain.1
      exact absurd (applicable fact isFact ▸ within fact.var isVar) unreached
    · have sameValues : (task.meaning.applyOperator op.meaning state).values = state.values := by
        rw [applyOperator_values]
        refine List.foldlRecOn (motive := fun values => values = state.values) _ _ rfl
          fun values same effect isEffect => ?_
        subst same
        split
        · rename_i fires
          have isVar := (validOp.post effect isEffect).mem_domain.1
          have constant := never effect isEffect state.values within applicable fires
          rw [Function.update_eq_self_iff, valid.eq_init_of_not_varies isVar constant
            (valid.reaches_post isOp isEffect within applicable fires),
            valid.eq_init_of_not_varies isVar constant (within effect.var isVar)]
        · rfl
      have same : task.meaning.applyOperator op.meaning state = state := by
        refine Preprocess.State.ext sameValues ?_
        simp [Preprocess.Task.applyOperator, SasOperator.meaning, noNumeric]
      rw [Preprocess.Task.successor, same]
      exact reachable.evaluated valid

/-! ## Executions -/

/-- The states have the same numeric values, and the values of the new one are the renamed values. -/
structure SameState (task simplified : SasTask) (state newState : Preprocess.State) : Prop where
  renamed : ∀ var < task.ranges.length,
    match task.numbering.translatePair { var := var, val := state.values var } with
    | (some newVar, .value newValue) => newState.values newVar = newValue
    | (_, .alwaysTrue) => True
    | _ => False
  numericValues : newState.numericValues = state.numericValues
  goal : simplified.meaning.isGoal newState = task.meaning.isGoal state
  globalConstraint : simplified.meaning.satisfiesGlobalConstraint newState =
    task.meaning.satisfiesGlobalConstraint state

/-- The new effect writes the renamed fact. -/
def WritesRenamed (task : SasTask) (effect newEffect : SasPrePost) : Prop :=
  ∃ newPost : ℕ, newEffect.post = newPost ∧
    task.numbering.translatePair { var := effect.var, val := effect.post } =
      (some newEffect.var, .value newPost)

/-- Every effect of the new operator fires in the one state if and only if the effect it comes from
fires in the other; effects that are gone change nothing. -/
structure SameEffects (task : SasTask) (op newOp : SasOperator) (state newState : Preprocess.State) :
    Prop where
  source : ∀ newEffect ∈ newOp.prePost, ∃ effect ∈ op.prePost, task.WritesRenamed effect newEffect ∧
    newEffect.fires newState.values = effect.fires state.values
  target : ∀ effect ∈ op.prePost,
    (∃ newEffect ∈ newOp.prePost, task.WritesRenamed effect newEffect ∧
      newEffect.fires newState.values = effect.fires state.values) ∨
      (effect.fires state.values = true → state.values effect.var = effect.post)
  numeric : newOp.assignEffects = op.assignEffects
  numericFires : ∀ effect ∈ op.assignEffects,
    Condition.allHold effect.cond newState.values = Condition.allHold effect.cond state.values

/-- Operators and what became of them, executed side by side. -/
def SameExecution (task simplified : SasTask) :
    Preprocess.State → Preprocess.State → List (SasOperator × SasOperator) → Prop
  | state, newState, [] => SameState task simplified state newState
  | state, newState, (op, newOp) :: plan =>
    SameState task simplified state newState ∧
      newOp.meaning.isApplicable newState = op.meaning.isApplicable state ∧
      (op.meaning.isApplicable state = true →
        SameEffects task op newOp state newState ∧
          SameExecution task simplified (task.meaning.successor op.meaning state)
            (simplified.meaning.successor newOp.meaning newState) plan)

theorem Simplified.sameState (simple : Simplified task simplified) (valid : task.Valid)
    (constraint : task.ConstraintVaries) {state newState : Preprocess.State}
    (corresponds : task.Corresponds state newState) :
    SameState task simplified state newState where
  renamed := by
    intro var isVar
    have reached := corresponds.values.reached var isVar
    obtain ⟨nonneg, small⟩ := mem_domain.mp (valid.reaches_within isVar reached)
    have validFact : task.ValidFact { var := var, val := state.values var } := by
      refine ⟨task.ranges[var], List.getElem?_eq_getElem isVar, nonneg, ?_⟩
      simpa [dtg, isVar] using small
    by_cases varies : task.Varies var
    · rw [valid.translatePair_varying validFact reached varies]
      exact corresponds.values.renamed var isVar varies
    · rw [valid.translatePair_constant validFact reached varies]
      trivial
  numericValues := corresponds.numericValues
  goal := valid.allHold_converted corresponds.values valid.goal simple.goal
  globalConstraint := by
    have translated := simple.globalConstraint
    rw [constraint.translates valid, Except.ok.injEq] at translated
    have same := valid.renamed_iff corresponds.values valid.globalConstraint.mem_domain.1
      constraint.reached constraint.varies
    rw [Bool.eq_iff_iff]
    simpa [Preprocess.Task.satisfiesGlobalConstraint, meaning, Condition.allHold, ← translated]
      using same

theorem Simplified.sameEffects (valid : task.Valid) {op newOp : SasOperator}
    (isOp : op ∈ task.operators) (kept : task.numbering.translateOperator op = .ok (some newOp))
    (keep : task.NumericConditionsKeepNumbers op) {state newState : Preprocess.State}
    (corresponds : task.Corresponds state newState)
    (applicable : op.meaning.isApplicable state = true) :
    SameEffects task op newOp state newState := by
  have validOp := valid.operators op isOp
  obtain ⟨conditions, newEffects, converts, renamed, rfl⟩ := valid.translateOperator_some isOp kept
  rw [isApplicable_eq_allHold] at applicable
  have sameFiring {effect newEffect : SasPrePost} (isEffect : effect ∈ op.prePost)
      (isRenamed : task.Renamed effect newEffect) :
      newEffect.fires newState.values = effect.fires state.values :=
    valid.allHold_converted corresponds.values (validOp.conds effect isEffect).facts isRenamed.cond
  have writes {effect newEffect : SasPrePost} (isEffect : effect ∈ op.prePost)
      (isRenamed : task.Renamed effect newEffect) : task.WritesRenamed effect newEffect := by
    refine ⟨_, isRenamed.post, ?_⟩
    rw [valid.translatePair_varying (validOp.post effect isEffect) isRenamed.reached
      isRenamed.varies, isRenamed.var]
  refine ⟨fun newEffect isNew => ?_, fun effect isEffect => ?_, validOp.sorted,
    fun effect isEffect => valid.allHold_kept corresponds.values (keep effect isEffect)⟩
  · obtain ⟨effect, isEffect, isRenamed⟩ := renamed.source (SasPrePost.mem_canonical.mp isNew)
    exact ⟨effect, isEffect, writes isEffect isRenamed, sameFiring isEffect isRenamed⟩
  · obtain never | ⟨newEffect, isNew, isRenamed⟩ := renamed.target isEffect
    · right
      intro fires
      have isVar := (validOp.post effect isEffect).mem_domain.1
      have constant := never state.values corresponds.values.reached applicable fires
      rw [valid.eq_init_of_not_varies isVar constant (corresponds.values.reached effect.var isVar),
        valid.eq_init_of_not_varies isVar constant
          (valid.reaches_post isOp isEffect corresponds.values.reached applicable fires)]
    · exact .inl ⟨newEffect, SasPrePost.mem_canonical.mpr isNew, writes isEffect isRenamed,
        sameFiring isEffect isRenamed⟩

theorem Simplified.sameExecution (simple : Simplified task simplified) (valid : task.Valid)
    (constraint : task.ConstraintVaries) {plan : List (SasOperator × SasOperator)}
    (kept : ∀ step ∈ plan, step.1 ∈ task.operators ∧
      task.numbering.translateOperator step.1 = .ok (some step.2) ∧
      task.NumericConditionsKeepNumbers step.1)
    {state newState : Preprocess.State} (corresponds : task.Corresponds state newState) :
    SameExecution task simplified state newState plan := by
  induction plan generalizing state newState with
  | nil => exact simple.sameState valid constraint corresponds
  | cons step plan inductionHypothesis =>
    rw [List.forall_mem_cons] at kept
    obtain ⟨isOp, isKept, keep⟩ := kept.1
    refine ⟨simple.sameState valid constraint corresponds,
      valid.isApplicable_kept isOp isKept corresponds, fun applicable => ⟨?_, ?_⟩⟩
    · exact Simplified.sameEffects valid isOp isKept keep corresponds applicable
    · exact inductionHypothesis kept.2
        (simple.successor valid isOp isKept keep corresponds applicable)

/-- The claim on the simplification of a task, for the steps that meet a condition. -/
def SimplificationPreserves (task : SasTask) (meets : SasOperator → Prop) : Prop :=
  match task.filterUnreachablePropositions with
  | .error .impossible => ∀ state, task.ReachableState state → task.meaning.isGoal state = false
  | .error .triviallySolvable => ∀ state, task.ReachableState state → task.meaning.isGoal state = true
  | .error _ => False
  | .ok simplified =>
    (∀ newOp, newOp ∈ simplified.operators ↔
      ∃ op ∈ task.operators, task.numbering.translateOperator op = .ok (some newOp)) ∧
    (∀ op ∈ task.operators, task.numbering.translateOperator op = .ok none →
      ∀ state, task.ReachableState state →
        op.meaning.isApplicable state = false ∨ task.meaning.successor op.meaning state = state) ∧
    ∀ plan : List (SasOperator × SasOperator),
      (∀ step ∈ plan, step.1 ∈ task.operators ∧
        task.numbering.translateOperator step.1 = .ok (some step.2) ∧ meets step.1) →
      SameExecution task simplified (task.meaning.evaluateAxioms task.meaning.initialState)
        (simplified.meaning.evaluateAxioms simplified.meaning.initialState) plan

theorem simplification_preserves_executions (task : SasTask) (valid : task.Valid)
    (constraint : task.ConstraintVaries) :
    task.SimplificationPreserves task.NumericConditionsKeepNumbers := by
  unfold SimplificationPreserves
  obtain ⟨result, fact, isFact, unreached⟩ | ⟨result, constant⟩ | ⟨simplified, result, simple⟩ :=
    valid.filter_cases constraint
  · rw [result]
    intro state reachable
    rw [Preprocess.Task.isGoal, Condition.allHold, List.all_eq_false]
    refine ⟨fact, isFact, ?_⟩
    rw [decide_eq_true_eq]
    intro holds
    exact unreached (holds ▸ reachable.within valid fact.var (valid.goal fact isFact).mem_domain.1)
  · rw [result]
    intro state reachable
    rw [Preprocess.Task.isGoal, Condition.allHold, List.all_eq_true]
    intro fact isFact
    have isVar := (valid.goal fact isFact).mem_domain.1
    obtain ⟨reached, unvarying⟩ := constant fact isFact
    rw [decide_eq_true_eq, valid.eq_init_of_not_varies isVar unvarying reached,
      valid.eq_init_of_not_varies isVar unvarying (reachable.within valid fact.var isVar)]
  · rw [result]
    refine ⟨fun newOp => mem_of_applyToOperators simple.operators,
      fun op isOp removed state reachable => valid.removed_operator isOp removed reachable,
      fun plan kept => ?_⟩
    exact simple.sameExecution valid constraint kept
      (simple.evaluateAxioms valid (simple.initialState valid))

/-! ## A numeric effect with an old condition -/

def switchOperator (switch : ℕ) : SasOperator where
  name := "switch"
  prevail := []
  prePost := [{ var := switch, pre := -1, post := 1, cond := [] }]
  assignEffects := []
  cost := 1

/-- The reading is taken under the conditions. -/
def readOperator (done : ℕ) (conds : List Condition) : SasOperator where
  name := "read"
  prevail := []
  prePost := [{ var := done, pre := -1, post := 1, cond := [] }]
  assignEffects := [{ nvar := 0, op := .assign, assVar := 1, cond := conds }]
  cost := 1

/-- Variable 0 is constant and removed, variable 1 is the switch, variable 2 the goal and variable 3 the
global constraint. -/
def meterTask (conds : List Condition) : SasTask where
  ranges := [2, 2, 2, 2]
  axiomLayers := [-1, -1, -1, 0]
  init := [0, 0, 0, 1]
  numericTypes := [.unknown, .constant]
  numericLayers := [-1, -1]
  numericInit := [0, 5]
  mutexes := []
  goal := [{ var := 2, val := 1 }]
  operators := [switchOperator 1, readOperator 2 conds]
  axioms := [{ condition := [], effect := { var := 3, val := 0 } }]
  compAxioms := []
  numericAxioms := []
  globalConstraint := { var := 3, val := 0 }
  metric := 0

theorem meterTask_valid (conds : List Condition) : (meterTask conds).Valid where
  layers := rfl
  inits := rfl
  sizes := by simp [meterTask]
  initFacts := by
    intro var value isInit
    match var with
    | 0 | 1 | 2 | 3 =>
      cases isInit
      exact ⟨2, rfl, by decide⟩
    | var + 4 => cases isInit
  goal := by
    intro fact member
    rw [List.mem_singleton.mp member]
    exact ⟨2, rfl, by decide⟩
  operators := by
    intro op isOp
    have single (var : ℕ) (isVar : (meterTask conds).ranges[var]? = some 2)
        (assignEffects : List SasAssignEffect) (name : String)
        (sorted : SasAssignEffect.sort assignEffects = assignEffects) :
        (meterTask conds).ValidOperator
          { name := name, prevail := [], cost := 1, assignEffects := assignEffects
            prePost := [{ var := var, pre := -1, post := 1, cond := [] }] } := by
      refine ⟨⟨by simp, by simp⟩, ?_, by simp, by simp, ?_, by simp, by simp,
        List.mergeSort_singleton _, sorted⟩
      · intro effect isEffect
        rw [List.mem_singleton.mp isEffect]
        exact ⟨by simp, by simp⟩
      · intro effect isEffect
        rw [List.mem_singleton.mp isEffect]
        exact ⟨2, isVar, by show (0 : ℤ) ≤ 1; omega, by show (1 : ℤ) < 2; omega⟩
    obtain isSwitch | isRead := List.mem_pair.mp isOp
    · rw [isSwitch]
      exact single 1 rfl [] "switch" List.mergeSort_nil
    · rw [isRead]
      exact single 2 rfl [_] "read" (List.mergeSort_singleton _)
  axiomConditions := by simp [meterTask]
  axiomEffects := by
    intro rule isRule
    rw [List.mem_singleton.mp isRule]
    exact ⟨2, rfl, by decide⟩
  comparisons := by simp [meterTask]
  globalConstraint := ⟨2, rfl, le_rfl, by show (0 : ℤ) < 2; omega⟩
  axiomsDerive :=
    { byRule := by
        intro rule isRule
        obtain ⟨sasRule, isSasRule, rfl⟩ := List.mem_map.mp isRule
        rw [List.mem_singleton.mp isSasRule]
        rfl
      byComparison := by simp [meaning, meterTask]
      byComputation := by simp [meaning, meterTask] }

theorem meter_reading_preserved :
    (meterTask []).SimplificationPreserves (meterTask []).NumericConditionsKeepNumbers :=
  simplification_preserves_executions (meterTask []) (meterTask_valid [])
    ⟨by decide +kernel, by decide +kernel⟩

def simplifiedMeterTask : SasTask where
  ranges := [2, 2, 2]
  axiomLayers := [-1, -1, 0]
  init := [0, 0, 1]
  numericTypes := [.unknown, .constant]
  numericLayers := [-1, -1]
  numericInit := [0, 5]
  mutexes := []
  goal := [{ var := 1, val := 1 }]
  operators := [switchOperator 0, readOperator 1 [{ var := 1, val := 1 }]]
  axioms := [{ condition := [], effect := { var := 2, val := 0 } }]
  compAxioms := []
  numericAxioms := []
  globalConstraint := { var := 2, val := 0 }
  metric := 0

theorem ok_of_toOption {α : Type} {result : Except Stop α} {value : α}
    (isValue : result.toOption = some value) : result = .ok value := by
  cases result with
  | error stop => cases isValue
  | ok found => rw [Option.some.inj isValue]

/-- The condition on the switch becomes one on the goal, so the reading is lost. -/
theorem meter_reading_lost :
    (meterTask [{ var := 1, val := 1 }]).Valid ∧
      (meterTask [{ var := 1, val := 1 }]).ConstraintVaries ∧
      ¬ (meterTask [{ var := 1, val := 1 }]).SimplificationPreserves fun _ => True := by
  refine ⟨meterTask_valid _, ⟨by decide +kernel, by decide +kernel⟩, fun preserves => ?_⟩
  have result : (meterTask [{ var := 1, val := 1 }]).filterUnreachablePropositions.toOption =
      some simplifiedMeterTask := by decide +kernel
  have isKept : ∀ step ∈ [(switchOperator 1, switchOperator 0),
      (readOperator 2 [{ var := 1, val := 1 }], readOperator 1 [{ var := 1, val := 1 }])],
      step.1 ∈ (meterTask [{ var := 1, val := 1 }]).operators ∧
        ((meterTask [{ var := 1, val := 1 }]).numbering.translateOperator step.1).toOption =
          some (some step.2) := by decide +kernel
  unfold SimplificationPreserves at preserves
  cases filtered : (meterTask [{ var := 1, val := 1 }]).filterUnreachablePropositions with
  | error stop =>
    rw [filtered] at result
    cases result
  | ok simplified =>
    rw [filtered] at result preserves
    cases result
    have execution := preserves.2.2
      [(switchOperator 1, switchOperator 0),
        (readOperator 2 [{ var := 1, val := 1 }], readOperator 1 [{ var := 1, val := 1 }])]
      fun step member => ⟨(isKept step member).1, ok_of_toOption (isKept step member).2, trivial⟩
    have last := (execution.2.2 (by decide +kernel)).2.2.2 (by decide +kernel)
    have sameNumbers := congrFun last.2.numericValues 0
    revert sameNumbers
    decide +kernel

end SasTask

end CutPlan.Translate
