import CutPlan.Preprocess.Relevance

/-! # Pruning preserves plans

The operators that change no relevant variable are removed.  The others act on the relevant variables
as before, so plans survive in both directions.  Variables that only the metric depends on are marked
in one pass over the effects; they evolve as before if the pass has found all that they depend on.
-/

namespace CutPlan.Preprocess

open CutPlan.Lib CutPlan.Sas

namespace Task

variable {task : Task}

def UnconditionalNumericEffects (task : Task) : Prop :=
  ∀ op ∈ task.operators, ∀ effect ∈ op.assignEffects, effect.effectConds = []

def ChangesRelevant (task : Task) (op : Operator) : Prop :=
  (∃ effect ∈ op.prePost, task.Relevant (.propositional effect.var)) ∨
    ∃ effect ∈ op.assignEffects, task.Relevant (.numeric effect.var)

/-- What the metric depends on through the effects of the remaining operators has been traced. -/
def OperandsTraced (task : Task) : Prop :=
  ∀ op ∈ task.operators, task.ChangesRelevant op → ∀ effect ∈ op.assignEffects,
    task.FeedsMetric effect.var →
      task.FeedsMetric effect.foperand ∨ task.Relevant (.numeric effect.foperand)

def AgreeOnNecessary (task : Task) : State → State → Prop :=
  AgreeOn fun var => task.isNecessary var = true

structure PruningPreservesPlans (task : Task) : Prop where
  retained : ∀ plan : List Operator,
    (∀ op ∈ plan, op ∈ task.operators ∧ task.isRetained op = true) →
    ∀ full stripped, task.AgreeOnNecessary full stripped →
      (task.analysed.Solves (task.analysed.evaluateAxioms full) plan ↔
        task.pruned.Solves (task.pruned.evaluateAxioms stripped)
          (plan.map (Operator.stripUnimportantEffects task.levels)))
  deleted : ∀ plan : List Operator, (∀ op ∈ plan, op ∈ task.operators) →
    ∀ full stripped, task.AgreeOnNecessary full stripped →
      task.analysed.Solves (task.analysed.evaluateAxioms full) plan →
        task.pruned.Solves (task.pruned.evaluateAxioms stripped)
          ((plan.filter task.isRetained).map (Operator.stripUnimportantEffects task.levels))
  bisimulation : ∀ full stripped, task.AgreeOnNecessary full stripped →
    task.analysed.isGoal full = task.pruned.isGoal stripped ∧
    task.analysed.satisfiesGlobalConstraint full = task.pruned.satisfiesGlobalConstraint stripped ∧
    ∀ op ∈ task.operators, task.isRetained op = true →
      op.isApplicable full = (op.stripUnimportantEffects task.levels).isApplicable stripped ∧
        task.AgreeOnNecessary (task.analysed.successor op full)
          (task.pruned.successor (op.stripUnimportantEffects task.levels) stripped)

/-! ## Retained operators -/

theorem levels_propositional_iff (var : ℕ) :
    task.levels.propositional var ≠ -1 ↔ task.isNecessary (.propositional var) = true := by
  simp only [levels]
  split <;> simp_all

theorem levels_numeric_iff (var : ℕ) :
    task.levels.numeric var ≠ -1 ↔ task.isNecessary (.numeric var) = true := by
  simp only [levels]
  split <;> simp_all

theorem analysedType_eq_regular_iff {var : ℕ} (changeable : task.numericType var = .unknown) :
    task.analysedType var = .regular ↔ task.Relevant (.numeric var) := by
  rw [← mem_relevantVars_iff]
  unfold analysedType typeAfter
  split_ifs <;> simp_all

theorem analysedType_eq_derived_iff (var : ℕ) :
    task.analysedType var = .derived ↔ task.numericType var = .derived := by
  unfold analysedType typeAfter
  split_ifs <;> simp_all

theorem isRetained_iff (wellFormed : task.WellFormed) {op : Operator}
    (isOperator : op ∈ task.operators) :
    task.isRetained op = true ↔ task.ChangesRelevant op := by
  have numeric : (∃ effect ∈ op.assignEffects, task.levels.numeric effect.var ≠ -1 ∧
      task.analysedType effect.var = .regular) ↔
        ∃ effect ∈ op.assignEffects, task.Relevant (.numeric effect.var) := by
    refine exists_congr fun effect => and_congr_right fun isEffect => ?_
    rw [analysedType_eq_regular_iff (wellFormed.changeable op isOperator effect isEffect),
      levels_numeric_iff]
    exact ⟨And.right, fun isRelevant => ⟨relevant_isNecessary isRelevant, isRelevant⟩⟩
  have propositional : (∃ effect ∈ op.prePost, task.levels.propositional effect.var ≠ -1) ↔
      ∃ effect ∈ op.prePost, task.Relevant (.propositional effect.var) := by
    refine exists_congr fun effect => and_congr_right fun _ => ?_
    rw [levels_propositional_iff, isNecessary_propositional]
  unfold ChangesRelevant
  rw [← numeric, ← propositional]
  simp [isRetained, isRedundant, Operator.stripUnimportantEffects]

theorem preconditionVars_relevant {op : Operator} (isOperator : op ∈ task.operators)
    (changes : task.ChangesRelevant op) : ∀ var ∈ op.preconditionVars, task.Relevant var := by
  intro var isPrecondition
  obtain ⟨effect, isEffect, isRelevant⟩ | ⟨effect, isEffect, isRelevant⟩ := changes
  · exact prePostSource_relevant isOperator isEffect (List.mem_append_left _ isPrecondition)
      isRelevant
  · exact numericSource_relevant isOperator isEffect
      (List.mem_append_left _ (List.mem_append_left _ isPrecondition)) isRelevant

theorem isApplicable_strip {op : Operator} {full stripped : State}
    (isOperator : op ∈ task.operators) (changes : task.ChangesRelevant op)
    (agree : AgreeOn task.Relevant full stripped) :
    op.isApplicable full = (op.stripUnimportantEffects task.levels).isApplicable stripped := by
  have preconditions := preconditionVars_relevant isOperator changes
  have prevail : Condition.allHold op.prevail full.values =
      Condition.allHold op.prevail stripped.values :=
    allHold_agree agree.values fun condition isCondition =>
      preconditions _ (List.mem_append_left _ (mem_conditionVars isCondition))
  unfold Operator.isApplicable Operator.stripUnimportantEffects
  rw [prevail, List.all_filter]
  congr 1
  rw [Bool.eq_iff_iff, List.all_eq_true, List.all_eq_true]
  refine forall₂_congr fun effect isEffect => ?_
  by_cases unconstrained : effect.pre = -1
  · simp [unconstrained]
  · have isRelevant : task.Relevant (.propositional effect.var) := by
      refine preconditions _ (List.mem_append_right _ (List.mem_map.mpr ⟨effect, ?_, rfl⟩))
      exact List.mem_filter.mpr ⟨isEffect, by simpa using unconstrained⟩
    have level := (levels_propositional_iff effect.var).mpr (relevant_isNecessary isRelevant)
    simp [unconstrained, level, agree.values _ isRelevant]

theorem prePostConds_relevant (wellFormed : task.WellFormed) {op : Operator}
    (isOperator : op ∈ task.operators) : ∀ effect ∈ op.prePost,
      task.Relevant (.propositional effect.var) →
      ∀ condition ∈ effect.effectConds, task.Relevant (.propositional condition.var) := by
  intro effect isEffect isRelevant condition isCondition
  have flag : effect.isConditionalEffect = true := by
    rw [wellFormed.prePostFlags op isOperator effect isEffect]
    simp [List.ne_nil_of_mem isCondition]
  refine prePostSource_relevant isOperator isEffect (List.mem_append_right _ ?_) isRelevant
  rw [if_pos flag]
  exact mem_conditionVars isCondition

theorem relevant_operatorClosed (wellFormed : task.WellFormed)
    (unconditional : task.UnconditionalNumericEffects) {op : Operator}
    (isOperator : op ∈ task.operators) : OperatorClosed task.Relevant op where
  prePost := prePostConds_relevant wellFormed isOperator
  numericConds := by
    intro effect isEffect _ condition isCondition
    rw [unconditional op isOperator effect isEffect] at isCondition
    cases isCondition
  numericOperand := fun _ isEffect isRelevant => operand_relevant isOperator isEffect isRelevant

theorem necessary_operatorClosed (wellFormed : task.WellFormed)
    (unconditional : task.UnconditionalNumericEffects) (traced : task.OperandsTraced) {op : Operator}
    (isOperator : op ∈ task.operators) (changes : task.ChangesRelevant op) :
    OperatorClosed (fun var => task.isNecessary var = true) op where
  prePost := by
    simp only [isNecessary_propositional]
    exact prePostConds_relevant wellFormed isOperator
  numericConds := by
    intro effect isEffect _ condition isCondition
    rw [unconditional op isOperator effect isEffect] at isCondition
    cases isCondition
  numericOperand := by
    intro effect isEffect
    simp only [isNecessary_numeric wellFormed]
    rintro (feeds | isRelevant)
    · exact traced op isOperator changes effect isEffect feeds
    · exact .inr (operand_relevant isOperator isEffect isRelevant)

/-! ## The pruned task -/

theorem pruned_stripsAxioms : StripsAxioms task.isNecessary task.analysed task.pruned where
  layer := rfl
  defaultValue := rfl
  numericType := rfl
  axiomsRel := rfl
  axiomsFuncComp := rfl
  axiomsNumeric := rfl

theorem levels_keep {kept : CGVar → Prop} (within : ∀ var, kept var → task.isNecessary var = true) :
    LevelsKeep kept task.levels where
  propositional := fun var isKept => (levels_propositional_iff var).mpr (within _ isKept)
  numeric := fun var isKept => (levels_numeric_iff var).mpr (within _ isKept)

theorem analysed_axiomsClosed {kept : CGVar → Prop} (closed : AxiomsClosed kept task) :
    AxiomsClosed kept task.analysed :=
  ⟨closed.rules, closed.comparisons, closed.computations⟩

theorem pruned_axiomsDerive (derive : task.AxiomsDerive) : task.pruned.AxiomsDerive where
  byRule := fun rule isRule => derive.byRule rule (List.mem_filter.mp isRule).1
  byComparison := fun rule isRule => derive.byComparison rule (List.mem_filter.mp isRule).1
  byComputation := fun rule isRule =>
    (analysedType_eq_derived_iff _).mpr (derive.byComputation rule (List.mem_filter.mp isRule).1)

/-- A closed set of necessary variables evolves in the pruned task as in the full one. -/
theorem successor_agree {kept : CGVar → Prop} {op : Operator} {full stripped : State}
    (within : ∀ var, kept var → task.isNecessary var = true) (axiomsClosed : AxiomsClosed kept task)
    (operatorClosed : OperatorClosed kept op) (agree : AgreeOn kept full stripped) :
    AgreeOn kept (task.analysed.successor op full)
      (task.pruned.successor (op.stripUnimportantEffects task.levels) stripped) :=
  evaluateAxioms_agree pruned_stripsAxioms (analysed_axiomsClosed axiomsClosed) within
    (applyOperator_agree rfl (levels_keep within) operatorClosed agree)

/-- A removed operator is not noticed in the pruned task. -/
theorem successor_removed {op : Operator} {full stripped : State}
    (removed : ¬ task.ChangesRelevant op) (agree : AgreeOn task.Relevant full stripped) :
    AgreeOn task.Relevant (task.analysed.successor op full) (task.pruned.evaluateAxioms stripped) := by
  have unaffected : AgreeOn task.Relevant (task.analysed.applyOperator op full) full :=
    applyOperator_unaffected
      (fun effect isEffect isRelevant => removed (.inl ⟨effect, isEffect, isRelevant⟩))
      (fun effect isEffect isRelevant => removed (.inr ⟨effect, isEffect, isRelevant⟩))
  refine evaluateAxioms_agree pruned_stripsAxioms (analysed_axiomsClosed relevant_axiomsClosed)
    (fun _ => relevant_isNecessary) ⟨?_, ?_⟩
  · intro var isRelevant
    rw [unaffected.values var isRelevant, agree.values var isRelevant]
  · intro var isRelevant
    rw [unaffected.numericValues var isRelevant, agree.numericValues var isRelevant]

theorem isGoal_agree {full stripped : State} (agree : AgreeOn task.Relevant full stripped) :
    task.analysed.isGoal full = task.pruned.isGoal stripped :=
  allHold_agree agree.values goals_relevant

theorem satisfiesGlobalConstraint_agree {full stripped : State}
    (agree : AgreeOn task.Relevant full stripped) :
    task.analysed.satisfiesGlobalConstraint full = task.pruned.satisfiesGlobalConstraint stripped :=
  allHold_agree agree.values fun condition member => by
    rw [List.mem_singleton.mp member]
    exact globalConstraint_relevant

/-! ## Plans -/

theorem solves_retained_iff (wellFormed : task.WellFormed)
    (unconditional : task.UnconditionalNumericEffects) {plan : List Operator}
    (retained : ∀ op ∈ plan, op ∈ task.operators ∧ task.isRetained op = true)
    {full stripped : State} (agree : AgreeOn task.Relevant full stripped) :
    task.analysed.Solves full plan ↔
      task.pruned.Solves stripped (plan.map (Operator.stripUnimportantEffects task.levels)) := by
  induction plan generalizing full stripped with
  | nil =>
    rw [List.map_nil, Solves, Solves, isGoal_agree agree, satisfiesGlobalConstraint_agree agree]
  | cons op plan inductionHypothesis =>
    rw [List.forall_mem_cons] at retained
    obtain ⟨isOperator, isRetained⟩ := retained.1
    have changes := (isRetained_iff wellFormed isOperator).mp isRetained
    have next := successor_agree (fun _ => relevant_isNecessary) relevant_axiomsClosed
      (relevant_operatorClosed wellFormed unconditional isOperator) agree
    rw [List.map_cons, Solves, Solves, satisfiesGlobalConstraint_agree agree,
      isApplicable_strip isOperator changes agree, inductionHypothesis retained.2 next]

theorem solves_of_deleted (wellFormed : task.WellFormed)
    (unconditional : task.UnconditionalNumericEffects) {plan : List Operator}
    (areOperators : ∀ op ∈ plan, op ∈ task.operators) {full stripped : State}
    (evaluated : task.pruned.evaluateAxioms stripped = stripped)
    (agree : AgreeOn task.Relevant full stripped) (solves : task.analysed.Solves full plan) :
    task.pruned.Solves stripped
      ((plan.filter task.isRetained).map (Operator.stripUnimportantEffects task.levels)) := by
  induction plan generalizing full stripped with
  | nil =>
    rw [Solves, isGoal_agree agree, satisfiesGlobalConstraint_agree agree] at solves
    exact solves
  | cons op plan inductionHypothesis =>
    rw [List.forall_mem_cons] at areOperators
    obtain ⟨isOperator, areOperators⟩ := areOperators
    obtain ⟨constraint, applicable, solves⟩ := solves
    have retained_iff := isRetained_iff wellFormed isOperator
    cases isRetained : task.isRetained op with
    | true =>
      have changes := retained_iff.mp isRetained
      rw [List.filter_cons_of_pos isRetained, List.map_cons]
      refine ⟨?_, ?_, inductionHypothesis areOperators ?_ ?_ solves⟩
      · rwa [← satisfiesGlobalConstraint_agree agree]
      · rwa [← isApplicable_strip isOperator changes agree]
      · exact evaluateAxioms_idempotent (pruned_axiomsDerive wellFormed.toAxiomsDerive) _
      · exact successor_agree (fun _ => relevant_isNecessary) relevant_axiomsClosed
          (relevant_operatorClosed wellFormed unconditional isOperator) agree
    | false =>
      have unchanged : ¬ task.ChangesRelevant op := by
        rw [← retained_iff, isRetained]
        exact Bool.false_ne_true
      rw [List.filter_cons_of_neg (by simp [isRetained])]
      have next := successor_removed unchanged agree
      rw [evaluated] at next
      exact inductionHypothesis areOperators evaluated next solves

theorem AgreeOnNecessary.relevant {full stripped : State}
    (agree : task.AgreeOnNecessary full stripped) : AgreeOn task.Relevant full stripped :=
  AgreeOn.mono agree fun _ => relevant_isNecessary

theorem pruning_preserves_plans (wellFormed : task.WellFormed)
    (unconditional : task.UnconditionalNumericEffects) (traced : task.OperandsTraced) :
    task.PruningPreservesPlans where
  retained := by
    intro plan retained full stripped agree
    refine solves_retained_iff wellFormed unconditional retained ?_
    exact evaluateAxioms_agree pruned_stripsAxioms (analysed_axiomsClosed relevant_axiomsClosed)
      (fun _ => relevant_isNecessary) agree.relevant
  deleted := by
    intro plan areOperators full stripped agree solves
    refine solves_of_deleted wellFormed unconditional areOperators ?_ ?_ solves
    · exact evaluateAxioms_idempotent (pruned_axiomsDerive wellFormed.toAxiomsDerive) _
    · exact evaluateAxioms_agree pruned_stripsAxioms (analysed_axiomsClosed relevant_axiomsClosed)
        (fun _ => relevant_isNecessary) agree.relevant
  bisimulation := by
    intro full stripped agree
    refine ⟨isGoal_agree agree.relevant, satisfiesGlobalConstraint_agree agree.relevant, ?_⟩
    intro op isOperator isRetained
    have changes := (isRetained_iff wellFormed isOperator).mp isRetained
    refine ⟨isApplicable_strip isOperator changes agree.relevant, ?_⟩
    exact successor_agree (fun _ => id) (necessary_axiomsClosed wellFormed)
      (necessary_operatorClosed wellFormed unconditional traced isOperator changes) agree

/-! ## The order of the effects -/

/-- Serving a round adds numeric variable 2 to numeric variable 1. -/
def serveRound : Operator where
  name := "serve-round"
  prevail := []
  prePost := [.make 0 [] 0 1]
  assignEffects := [.unconditional 1 .increase 2]
  cost := 1

/-- Paying the tab adds numeric variable 1 to the metric. -/
def payTab : Operator where
  name := "pay-tab"
  prevail := []
  prePost := [.make 0 [] 1 2]
  assignEffects := [.unconditional 0 .increase 1]
  cost := 1

def tabTask (operators : List Operator) : Task where
  layer := fun _ => none
  defaultValue := fun _ => 0
  numericType := fun _ => .unknown
  numericLayer := fun _ => 0
  initialState := { values := fun _ => 0, numericValues := fun _ => 1 }
  operators := operators
  axiomsRel := []
  axiomsNumeric := []
  axiomsFuncComp := []
  goals := [{ var := 0, val := 2 }]
  globalConstraint := { var := 1, val := 0 }
  metric := 0

theorem tabTask_wellFormed (operators : List Operator)
    (flags : ∀ op ∈ operators, ∀ effect ∈ op.prePost,
      effect.isConditionalEffect = !effect.effectConds.isEmpty) :
    (tabTask operators).WellFormed where
  byRule := by simp [tabTask]
  byComparison := by simp [tabTask]
  byComputation := by simp [tabTask]
  prePostFlags := flags
  changeable := fun _ _ _ _ => rfl
  layered := by simp [tabTask]

theorem paid_then_served_preserves_plans :
    (tabTask [payTab, serveRound]).WellFormed ∧
      (tabTask [payTab, serveRound]).UnconditionalNumericEffects ∧
      (tabTask [payTab, serveRound]).OperandsTraced ∧
      (tabTask [payTab, serveRound]).PruningPreservesPlans := by
  have wellFormed := tabTask_wellFormed [payTab, serveRound] (by decide)
  have unconditional : (tabTask [payTab, serveRound]).UnconditionalNumericEffects := by
    unfold UnconditionalNumericEffects
    decide
  have traced : (tabTask [payTab, serveRound]).OperandsTraced := by
    intro op isOperator _ effect isEffect _
    left
    have metricTraced : (tabTask [payTab, serveRound]).TracedBy [] 0 := .refl
    have tabTraced : (tabTask [payTab, serveRound]).TracedBy [.unconditional 0 .increase 1] 1 :=
      .inr ⟨metricTraced, .refl⟩
    obtain rfl | rfl : op = payTab ∨ op = serveRound := by simpa [tabTask] using isOperator
    · obtain rfl := List.mem_singleton.mp isEffect
      exact .inl tabTraced
    · obtain rfl := List.mem_singleton.mp isEffect
      exact .inr ⟨tabTraced, .refl⟩
  exact ⟨wellFormed, unconditional, traced,
    pruning_preserves_plans wellFormed unconditional traced⟩

/-- With the operators the other way round, numeric variable 2 is pruned although numeric variable 1
is kept. -/
theorem served_then_paid_loses_operand :
    (tabTask [serveRound, payTab]).WellFormed ∧
      (tabTask [serveRound, payTab]).UnconditionalNumericEffects ∧
      (tabTask [serveRound, payTab]).isNecessary (.numeric 1) = true ∧
      (tabTask [serveRound, payTab]).isNecessary (.numeric 2) = false ∧
      ¬ (tabTask [serveRound, payTab]).PruningPreservesPlans := by
  refine ⟨tabTask_wellFormed _ (by decide), ?_, by decide +kernel, by decide +kernel, ?_⟩
  · unfold UnconditionalNumericEffects
    decide
  · intro preserves
    let expensive : State :=
      { values := fun _ => 0, numericValues := fun var => if var = 2 then 5 else 1 }
    have agree : (tabTask [serveRound, payTab]).AgreeOnNecessary
        (tabTask [serveRound, payTab]).initialState expensive := by
      refine ⟨fun _ _ => rfl, fun var isNecessary => ?_⟩
      have different : var ≠ 2 := by
        rintro rfl
        have pruned : (tabTask [serveRound, payTab]).isNecessary (.numeric 2) = false := by
          decide +kernel
        rw [pruned] at isNecessary
        cases isNecessary
      exact (if_neg different).symm
    obtain ⟨_, _, retained⟩ := preserves.bisimulation _ _ agree
    obtain ⟨_, next⟩ := retained serveRound (by simp [tabTask]) (by decide +kernel)
    have tab := next.numericValues 1 (by decide +kernel)
    revert tab
    decide +kernel

end Task

end CutPlan.Preprocess
