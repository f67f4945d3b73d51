import CutPlan.Preprocess.Pruning

/-! # Variables in the output

All variables that the written task mentions have a level, except for operands that the pass over the effects
has missed.
-/

namespace CutPlan.Preprocess

open CutPlan.Lib CutPlan.Sas

/-! ## What is written -/

def Operator.mentionedVars (op : Operator) : List CGVar :=
  conditionVars op.prevail ++
    op.prePost.flatMap (fun effect => conditionVars effect.effectConds ++ [.propositional effect.var]) ++
    op.assignEffects.flatMap fun effect =>
      conditionVars effect.effectConds ++ [.numeric effect.var, .numeric effect.foperand]

def AxiomRelational.mentionedVars (rule : AxiomRelational) : List CGVar :=
  conditionVars rule.conditions ++ [.propositional rule.effectVar]

def AxiomNumericComputation.mentionedVars (rule : AxiomNumericComputation) : List CGVar :=
  [.numeric rule.effectVar, .numeric rule.leftVar, .numeric rule.rightVar]

def AxiomFunctionalComparison.mentionedVars (rule : AxiomFunctionalComparison) : List CGVar :=
  [.propositional rule.effectVar, .numeric rule.leftVar, .numeric rule.rightVar]

namespace Task

def mentionedVars (task : Task) : List CGVar :=
  task.operators.flatMap Operator.mentionedVars ++ task.axiomsRel.flatMap AxiomRelational.mentionedVars ++
    task.axiomsNumeric.flatMap AxiomNumericComputation.mentionedVars ++
    task.axiomsFuncComp.flatMap AxiomFunctionalComparison.mentionedVars ++ conditionVars task.goals ++
    conditionVars [task.globalConstraint] ++ [.numeric task.metric]

/-- The index that is written for a variable. -/
def level (task : Task) : CGVar → ℤ
  | .propositional var => task.levels.propositional var
  | .numeric var => task.levels.numeric var

variable {task : Task}

theorem level_iff (var : CGVar) : task.level var ≠ -1 ↔ task.isNecessary var = true := by
  cases var with
  | propositional var => exact levels_propositional_iff var
  | numeric var => exact levels_numeric_iff var

theorem forall_mem_conditionVars {conditions : List Condition} {property : CGVar → Prop} :
    (∀ var ∈ conditionVars conditions, property var) ↔
      ∀ condition ∈ conditions, property (.propositional condition.var) :=
  List.forall_mem_map

theorem feedsMetric_metric : task.FeedsMetric task.metric := by
  have traced : ∀ effects : List NumericEffect, task.TracedBy effects task.metric := by
    intro effects
    induction effects with
    | nil => exact .refl
    | cons effect earlier inductionHypothesis => exact .inl inductionHypothesis
  exact traced _

/-! ## Operators that are written -/

theorem mem_pruned_operators {written : Operator} :
    written ∈ task.pruned.operators ↔
      ∃ op ∈ task.operators, task.isRetained op = true ∧ op.stripUnimportantEffects task.levels = written := by
  simp only [pruned, List.mem_map, List.mem_filter, and_assoc]

theorem operator_levels (wellFormed : task.WellFormed) (unconditional : task.UnconditionalNumericEffects)
    (traced : task.OperandsTraced) {op : Operator} (isOperator : op ∈ task.operators)
    (retained : task.isRetained op = true) :
    ∀ var ∈ (op.stripUnimportantEffects task.levels).mentionedVars, task.isNecessary var = true := by
  have changes := (isRetained_iff wellFormed isOperator).mp retained
  have closed := necessary_operatorClosed wellFormed unconditional traced isOperator changes
  simp only [Operator.mentionedVars, Operator.stripUnimportantEffects, List.forall_mem_append, List.forall_mem_flatMap,
    forall_mem_conditionVars, List.forall_mem_cons, List.mem_filter, decide_eq_true_eq, levels_propositional_iff,
    levels_numeric_iff]
  refine ⟨⟨?_, ?_⟩, ?_⟩
  · intro condition isCondition
    have isRelevant := preconditionVars_relevant isOperator changes _ (List.mem_append_left _ (mem_conditionVars isCondition))
    exact relevant_isNecessary isRelevant
  · rintro effect ⟨isEffect, isNecessary⟩
    exact ⟨fun condition isCondition => closed.prePost effect isEffect isNecessary condition isCondition, isNecessary,
      by simp⟩
  · rintro effect ⟨isEffect, isNecessary⟩
    exact ⟨fun condition isCondition => closed.numericConds effect isEffect isNecessary condition isCondition,
      isNecessary, closed.numericOperand effect isEffect isNecessary, by simp⟩

/-! ## The whole output -/

theorem axioms_levels (wellFormed : task.WellFormed) :
    (∀ rule ∈ task.pruned.axiomsRel, ∀ var ∈ rule.mentionedVars, task.isNecessary var = true) ∧
      (∀ rule ∈ task.pruned.axiomsNumeric, ∀ var ∈ rule.mentionedVars, task.isNecessary var = true) ∧
      ∀ rule ∈ task.pruned.axiomsFuncComp, ∀ var ∈ rule.mentionedVars, task.isNecessary var = true := by
  have closed := necessary_axiomsClosed wellFormed
  refine ⟨?_, ?_, ?_⟩
  · intro rule isRule
    obtain ⟨isRule, isNecessary⟩ := List.mem_filter.mp isRule
    simp only [AxiomRelational.mentionedVars, List.forall_mem_append, forall_mem_conditionVars, List.forall_mem_cons]
    exact ⟨closed.rules rule isRule isNecessary, isNecessary, by simp⟩
  · intro rule isRule
    obtain ⟨isRule, isNecessary⟩ := List.mem_filter.mp isRule
    simp only [AxiomNumericComputation.mentionedVars, List.forall_mem_cons]
    exact ⟨isNecessary, (closed.computations rule isRule isNecessary).1, (closed.computations rule isRule isNecessary).2,
      by simp⟩
  · intro rule isRule
    obtain ⟨isRule, isNecessary⟩ := List.mem_filter.mp isRule
    simp only [AxiomFunctionalComparison.mentionedVars, List.forall_mem_cons]
    exact ⟨isNecessary, (closed.comparisons rule isRule isNecessary).1, (closed.comparisons rule isRule isNecessary).2,
      by simp⟩

/-- The index -1 is written for no variable, except for operands that the pass over the effects has missed. -/
theorem written_levels_iff (wellFormed : task.WellFormed) (unconditional : task.UnconditionalNumericEffects) :
    (∀ var ∈ task.pruned.mentionedVars, task.level var ≠ -1) ↔ task.OperandsTraced := by
  simp only [level_iff]
  constructor
  · intro haveLevels op isOperator changes effect isEffect feeds
    rw [← isNecessary_numeric wellFormed]
    apply haveLevels
    have isNecessary : task.isNecessary (.numeric effect.var) = true :=
      (isNecessary_numeric wellFormed effect.var).mpr (.inl feeds)
    have written : op.stripUnimportantEffects task.levels ∈ task.pruned.operators :=
      mem_pruned_operators.mpr ⟨op, isOperator, (isRetained_iff wellFormed isOperator).mpr changes, rfl⟩
    have kept : effect ∈ (op.stripUnimportantEffects task.levels).assignEffects :=
      List.mem_filter.mpr ⟨isEffect, by simpa using (levels_numeric_iff effect.var).mpr isNecessary⟩
    have inOperator : .numeric effect.foperand ∈ (op.stripUnimportantEffects task.levels).mentionedVars :=
      List.mem_append_right _ (List.mem_flatMap.mpr ⟨effect, kept, by simp⟩)
    simp only [mentionedVars, List.append_assoc]
    exact List.mem_append_left _ (List.mem_flatMap.mpr ⟨_, written, inOperator⟩)
  · intro traced
    obtain ⟨rules, computations, comparisons⟩ := axioms_levels wellFormed
    simp only [mentionedVars, List.forall_mem_append, List.forall_mem_flatMap, forall_mem_conditionVars,
      List.forall_mem_cons]
    refine ⟨⟨⟨⟨⟨⟨?_, rules⟩, computations⟩, comparisons⟩, ?_⟩, ?_, by simp⟩, ?_, by simp⟩
    · intro written isWritten
      obtain ⟨op, isOperator, retained, rfl⟩ := mem_pruned_operators.mp isWritten
      exact operator_levels wellFormed unconditional traced isOperator retained
    · exact fun goal isGoal => relevant_isNecessary (goals_relevant goal isGoal)
    · exact relevant_isNecessary globalConstraint_relevant
    · exact (isNecessary_numeric wellFormed task.metric).mpr (.inl feedsMetric_metric)

theorem tabTask_unconditional (operators : List Operator)
    (unconditional : ∀ op ∈ operators, ∀ effect ∈ op.assignEffects, effect.effectConds = []) :
    (tabTask operators).UnconditionalNumericEffects := unconditional

/-- With the operators in this order, everything that the metric depends on is traced. -/
theorem paid_then_served_traced : (tabTask [payTab, serveRound]).OperandsTraced :=
  (written_levels_iff (tabTask_wellFormed _ (by decide)) (tabTask_unconditional _ (by decide))).mp (by decide +kernel)

/-- In the other order, -1 is written for an operand. -/
theorem served_then_paid_dangles :
    (tabTask [serveRound, payTab]).WellFormed ∧ (tabTask [serveRound, payTab]).UnconditionalNumericEffects ∧
      .numeric 2 ∈ (tabTask [serveRound, payTab]).pruned.mentionedVars ∧
      (tabTask [serveRound, payTab]).level (.numeric 2) = -1 ∧
      ¬ ∀ var ∈ (tabTask [serveRound, payTab]).pruned.mentionedVars, (tabTask [serveRound, payTab]).level var ≠ -1 :=
  ⟨tabTask_wellFormed _ (by decide), tabTask_unconditional _ (by decide), by decide +kernel, by decide +kernel,
    by decide +kernel⟩

end Task

end CutPlan.Preprocess
