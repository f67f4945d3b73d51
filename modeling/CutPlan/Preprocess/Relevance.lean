import CutPlan.Preprocess.Agreement

/-! # What the relevance analysis marks

The marked variables are those that the goals and the global constraint depend on, and those that the
metric is traced to by one pass over the effects.
-/

namespace CutPlan.Preprocess

open CutPlan.Lib CutPlan.Sas

namespace Task

variable (task : Task)

/-! ## Relevant variables -/

def Relevant (var : CGVar) : Prop :=
  ∃ root ∈ task.relevanceRoots, Reaches task.predecessors root var

variable {task}

theorem mem_predecessors {source target : CGVar} :
    source ∈ task.predecessors target ↔ { source := source, target := target } ∈ task.edges := by
  simp only [predecessors, List.mem_map, List.mem_filter, decide_eq_true_eq]
  constructor
  · rintro ⟨edge, ⟨isEdge, rfl⟩, rfl⟩
    exact isEdge
  · intro isEdge
    exact ⟨_, ⟨isEdge, rfl⟩, rfl⟩

theorem mem_relevantVars_iff (var : CGVar) : var ∈ task.relevantVars ↔ task.Relevant var := by
  refine mem_markAll_iff
    (task.edges.map CGEdge.source ++ task.relevanceRoots).toFinset ?_ ?_ ?_ var
  · intro vertex neighbour isNeighbour
    rw [mem_predecessors] at isNeighbour
    exact List.mem_toFinset.mpr
      (List.mem_append_left _ (List.mem_map.mpr ⟨_, isNeighbour, rfl⟩))
  · intro root isRoot
    exact List.mem_toFinset.mpr (List.mem_append_right _ isRoot)
  · refine (List.toFinset_card_le _).trans ?_
    rw [List.length_append, List.length_map]

theorem relevant_of_root {var : CGVar} (isRoot : var ∈ task.relevanceRoots) : task.Relevant var :=
  ⟨var, isRoot, .refl⟩

theorem relevant_of_edge {source target : CGVar}
    (isEdge : { source := source, target := target } ∈ task.edges)
    (isRelevant : task.Relevant target) : task.Relevant source := by
  obtain ⟨root, isRoot, reaches⟩ := isRelevant
  exact ⟨root, isRoot, reaches.tail (mem_predecessors.mpr isEdge)⟩

/-- The edges leave loops out, but a loop makes nothing else relevant. -/
theorem relevant_of_edgesTo {source target : CGVar} {sources : List CGVar}
    (areEdges : ∀ edge ∈ edgesTo target sources, edge ∈ task.edges) (isSource : source ∈ sources)
    (isRelevant : task.Relevant target) : task.Relevant source := by
  by_cases isLoop : source = target
  · rwa [isLoop]
  · refine relevant_of_edge (areEdges _ ?_) isRelevant
    exact List.mem_map.mpr ⟨source, List.mem_filter.mpr ⟨isSource, by simpa using isLoop⟩, rfl⟩

theorem mem_conditionVars {conditions : List Condition} {condition : Condition}
    (member : condition ∈ conditions) : .propositional condition.var ∈ conditionVars conditions :=
  List.mem_map.mpr ⟨condition, member, rfl⟩

theorem goals_relevant : ∀ goal ∈ task.goals, task.Relevant (.propositional goal.var) :=
  fun _ isGoal => relevant_of_root (List.mem_append_left _ (mem_conditionVars isGoal))

theorem globalConstraint_relevant : task.Relevant (.propositional task.globalConstraint.var) :=
  relevant_of_root (List.mem_append_right _ (mem_conditionVars (List.mem_singleton.mpr rfl)))

theorem operatorEdges_mem {op : Operator} (isOperator : op ∈ task.operators) :
    ∀ edge ∈ op.edges, edge ∈ task.edges := by
  intro edge isEdge
  simp only [edges, List.mem_append]
  exact .inl (.inl (.inl (List.mem_flatMap.mpr ⟨op, isOperator, isEdge⟩)))

theorem prePostSource_relevant {op : Operator} {effect : PrePost} {source : CGVar}
    (isOperator : op ∈ task.operators) (isEffect : effect ∈ op.prePost)
    (isSource : source ∈ op.preconditionVars ++
      if effect.isConditionalEffect then conditionVars effect.effectConds else [])
    (isRelevant : task.Relevant (.propositional effect.var)) : task.Relevant source := by
  refine relevant_of_edgesTo (fun edge isEdge => operatorEdges_mem isOperator edge ?_) isSource
    isRelevant
  exact List.mem_append_left _ (List.mem_flatMap.mpr ⟨effect, isEffect, isEdge⟩)

theorem numericSource_relevant {op : Operator} {effect : NumericEffect} {source : CGVar}
    (isOperator : op ∈ task.operators) (isEffect : effect ∈ op.assignEffects)
    (isSource : source ∈ op.preconditionVars ++
      (if effect.isConditionalEffect then conditionVars effect.effectConds else []) ++
      [.numeric effect.foperand])
    (isRelevant : task.Relevant (.numeric effect.var)) : task.Relevant source := by
  refine relevant_of_edgesTo (fun edge isEdge => operatorEdges_mem isOperator edge ?_) isSource
    isRelevant
  exact List.mem_append_right _ (List.mem_flatMap.mpr ⟨effect, isEffect, isEdge⟩)

theorem operand_relevant {op : Operator} {effect : NumericEffect}
    (isOperator : op ∈ task.operators) (isEffect : effect ∈ op.assignEffects)
    (isRelevant : task.Relevant (.numeric effect.var)) :
    task.Relevant (.numeric effect.foperand) :=
  numericSource_relevant isOperator isEffect (List.mem_append_right _ (List.mem_singleton.mpr rfl))
    isRelevant

theorem relevant_axiomsClosed : AxiomsClosed task.Relevant task where
  rules := by
    intro rule isRule isRelevant condition isCondition
    refine relevant_of_edgesTo (fun edge isEdge => ?_) (mem_conditionVars isCondition) isRelevant
    simp only [edges, List.mem_append]
    exact .inl (.inl (.inr (List.mem_flatMap.mpr ⟨rule, isRule, isEdge⟩)))
  comparisons := by
    intro rule isRule isRelevant
    have areEdges : ∀ edge ∈ rule.edges, edge ∈ task.edges := by
      intro edge isEdge
      simp only [edges, List.mem_append]
      exact .inl (.inr (List.mem_flatMap.mpr ⟨rule, isRule, isEdge⟩))
    exact ⟨relevant_of_edgesTo areEdges (by simp) isRelevant,
      relevant_of_edgesTo areEdges (by simp) isRelevant⟩
  computations := by
    intro rule isRule isRelevant
    have areEdges : ∀ edge ∈ rule.edges, edge ∈ task.edges := by
      intro edge isEdge
      simp only [edges, List.mem_append]
      exact .inr (List.mem_flatMap.mpr ⟨rule, isRule, isEdge⟩)
    exact ⟨relevant_of_edgesTo areEdges (by simp) isRelevant,
      relevant_of_edgesTo areEdges (by simp) isRelevant⟩

/-! ## Variables that feed the metric -/

variable (task)

/-- The operands of the arithmetic axioms that derive a variable. -/
def computationOperands (var : ℕ) : List ℕ :=
  (task.axiomsNumeric.filter fun rule => rule.effectVar = var).flatMap fun rule =>
    [rule.leftVar, rule.rightVar]

/-- The variables that one pass over the effects, last one first, finds the metric to depend on. -/
def TracedBy : List NumericEffect → ℕ → Prop
  | [], var => Reaches task.computationOperands task.metric var
  | effect :: earlier, var => TracedBy earlier var ∨
      TracedBy earlier effect.var ∧ Reaches task.computationOperands effect.foperand var

def FeedsMetric (var : ℕ) : Prop :=
  task.TracedBy (task.operators.flatMap Operator.assignEffects).reverse var

variable {task}

theorem relevant_of_reaches {source var : ℕ} (isRelevant : task.Relevant (.numeric source))
    (reaches : Reaches task.computationOperands source var) : task.Relevant (.numeric var) := by
  induction reaches with
  | refl => exact isRelevant
  | tail _ isOperand inductionHypothesis =>
    simp only [computationOperands, List.mem_flatMap, List.mem_filter, decide_eq_true_eq] at isOperand
    obtain ⟨rule, ⟨isRule, rfl⟩, isOperand⟩ := isOperand
    obtain ⟨leftRelevant, rightRelevant⟩ :=
      relevant_axiomsClosed.computations rule isRule inductionHypothesis
    simp only [List.mem_cons, List.not_mem_nil, or_false] at isOperand
    obtain rfl | rfl := isOperand
    · exact leftRelevant
    · exact rightRelevant

theorem reaches_operands_iff (var other : ℕ) :
    Reaches task.computationOperands var other ↔
      var = other ∨ ∃ rule ∈ task.axiomsNumeric, rule.effectVar = var ∧
        (Reaches task.computationOperands rule.leftVar other ∨
          Reaches task.computationOperands rule.rightVar other) := by
  unfold Reaches
  rw [Relation.ReflTransGen.cases_head_iff]
  refine or_congr Iff.rfl ?_
  simp only [computationOperands, List.mem_flatMap, List.mem_filter, decide_eq_true_eq,
    List.mem_cons, List.not_mem_nil, or_false]
  constructor
  · rintro ⟨_, ⟨rule, ⟨isRule, isEffect⟩, rfl | rfl⟩, reaches⟩
    · exact ⟨rule, isRule, isEffect, .inl reaches⟩
    · exact ⟨rule, isRule, isEffect, .inr reaches⟩
  · rintro ⟨rule, isRule, isEffect, reaches | reaches⟩
    · exact ⟨rule.leftVar, ⟨rule, ⟨isRule, isEffect⟩, .inl rfl⟩, reaches⟩
    · exact ⟨rule.rightVar, ⟨rule, ⟨isRule, isEffect⟩, .inr rfl⟩, reaches⟩

/-- Marking a variable also marks what it is computed from, except for relevant variables. -/
theorem mem_setVariableInstrumentationNecessary (wellFormed : task.WellFormed) {fuel var : ℕ}
    (enough : task.numericLayer var < fuel) (marked : Finset ℕ) (other : ℕ) :
    (other ∈ task.setVariableInstrumentationNecessary fuel var marked ∨
        task.Relevant (.numeric other)) ↔
      (other ∈ marked ∨ task.Relevant (.numeric other)) ∨
        Reaches task.computationOperands var other := by
  induction fuel generalizing var marked with
  | zero => omega
  | succ fuel fuelHypothesis =>
    have fold : ∀ rules : List AxiomNumericComputation, (∀ rule ∈ rules, rule ∈ task.axiomsNumeric) →
        ∀ marked : Finset ℕ,
        (other ∈ rules.foldl
            (fun marked rule =>
              if rule.effectVar = var then
                task.setVariableInstrumentationNecessary fuel rule.rightVar
                  (task.setVariableInstrumentationNecessary fuel rule.leftVar marked)
              else marked) marked ∨ task.Relevant (.numeric other)) ↔
          (other ∈ marked ∨ task.Relevant (.numeric other)) ∨
            ∃ rule ∈ rules, rule.effectVar = var ∧
              (Reaches task.computationOperands rule.leftVar other ∨
                Reaches task.computationOperands rule.rightVar other) := by
      intro rules areRules
      induction rules with
      | nil => simp
      | cons rule rules inductionHypothesis =>
        intro marked
        rw [List.forall_mem_cons] at areRules
        rw [List.foldl_cons, inductionHypothesis areRules.2, List.exists_mem_cons_iff]
        by_cases derives : rule.effectVar = var
        · have lower := wellFormed.layered rule areRules.1
          rw [derives] at lower
          rw [if_pos derives, fuelHypothesis (by omega), fuelHypothesis (by omega)]
          simp only [derives, true_and, or_assoc]
        · simp only [derives, if_false, false_and, false_or]
    have start : (other ∈ (if .numeric var ∈ task.relevantVars then marked else insert var marked) ∨
        task.Relevant (.numeric other)) ↔
          (other ∈ marked ∨ task.Relevant (.numeric other)) ∨ var = other := by
      split
      case isTrue isRelevant =>
        rw [mem_relevantVars_iff] at isRelevant
        refine ⟨.inl, ?_⟩
        rintro (early | rfl)
        · exact early
        · exact .inr isRelevant
      case isFalse =>
        rw [Finset.mem_insert, @eq_comm _ other, or_assoc, or_comm]
    unfold setVariableInstrumentationNecessary
    rw [fold _ (fun _ => id), start, reaches_operands_iff var other, or_assoc]

theorem mem_markInstrumentation (wellFormed : task.WellFormed) (var : ℕ) (marked : Finset ℕ)
    (other : ℕ) :
    (other ∈ task.markInstrumentation var marked ∨ task.Relevant (.numeric other)) ↔
      (other ∈ marked ∨ task.Relevant (.numeric other)) ∨
        Reaches task.computationOperands var other :=
  mem_setVariableInstrumentationNecessary wellFormed (Nat.lt_succ_self _) marked other

theorem typeAfter_eq_instrumentation_iff (marked : Finset ℕ) {var : ℕ}
    (changeable : task.numericType var = .unknown) :
    task.typeAfter marked var = .instrumentation ↔
      ¬ task.Relevant (.numeric var) ∧ var ∈ marked := by
  rw [← mem_relevantVars_iff]
  unfold typeAfter
  split_ifs <;> simp_all

theorem mem_markOperand (wellFormed : task.WellFormed) {effect : NumericEffect}
    (changeable : task.numericType effect.var = .unknown) (marked : Finset ℕ) (other : ℕ) :
    (other ∈ task.markOperand marked effect ∨ task.Relevant (.numeric other)) ↔
      (other ∈ marked ∨ task.Relevant (.numeric other)) ∨
        (¬ task.Relevant (.numeric effect.var) ∧ effect.var ∈ marked) ∧
          Reaches task.computationOperands effect.foperand other := by
  have isInstrumentation := typeAfter_eq_instrumentation_iff marked changeable
  unfold markOperand
  split
  case isTrue marks =>
    rw [mem_markInstrumentation wellFormed]
    simp only [isInstrumentation.mp marks, not_false_eq_true, true_and]
  case isFalse marks =>
    rw [isInstrumentation] at marks
    simp only [marks, false_and, or_false]

/-- The analysis marks the variables that feed the metric, except for the relevant ones. -/
theorem mem_metricVars (wellFormed : task.WellFormed) (var : ℕ) :
    (var ∈ task.metricVars ∨ task.Relevant (.numeric var)) ↔
      task.FeedsMetric var ∨ task.Relevant (.numeric var) := by
  have pass : ∀ effects : List NumericEffect,
      (∀ effect ∈ effects, effect ∈ task.operators.flatMap Operator.assignEffects) → ∀ var,
      (var ∈ effects.reverse.foldl task.markOperand (task.markInstrumentation task.metric ∅) ∨
          task.Relevant (.numeric var)) ↔
        task.TracedBy effects var ∨ task.Relevant (.numeric var) := by
    intro effects areEffects
    induction effects with
    | nil =>
      intro var
      rw [List.reverse_nil, List.foldl_nil, mem_markInstrumentation wellFormed]
      simp [TracedBy, or_comm]
    | cons effect earlier inductionHypothesis =>
      intro var
      rw [List.forall_mem_cons] at areEffects
      replace inductionHypothesis := inductionHypothesis areEffects.2
      obtain ⟨op, isOperator, isEffect⟩ := List.mem_flatMap.mp areEffects.1
      have changeable := wellFormed.changeable op isOperator effect isEffect
      have traced := inductionHypothesis effect.var
      rw [List.reverse_cons, List.foldl_append, List.foldl_cons, List.foldl_nil,
        mem_markOperand wellFormed changeable, inductionHypothesis var, TracedBy]
      by_cases isRelevant : task.Relevant (.numeric effect.var)
      · have operandRelevant := operand_relevant isOperator isEffect isRelevant
        constructor
        · rintro ((early | known) | marks)
          · exact .inl (.inl early)
          · exact .inr known
          · exact absurd isRelevant marks.1.1
        · rintro ((early | ⟨_, reaches⟩) | known)
          · exact .inl (.inl early)
          · exact .inl (.inr (relevant_of_reaches operandRelevant reaches))
          · exact .inl (.inr known)
      · simp only [isRelevant, or_false] at traced
        simp only [isRelevant, not_false_eq_true, true_and, traced]
        exact or_right_comm
  have result := pass (task.operators.flatMap Operator.assignEffects).reverse
    (fun effect member => List.mem_reverse.mp member) var
  rwa [List.reverse_reverse] at result

/-! ## Necessary variables -/

theorem isNecessary_propositional (var : ℕ) :
    task.isNecessary (.propositional var) = true ↔ task.Relevant (.propositional var) := by
  simp [isNecessary, mem_relevantVars_iff]

theorem isNecessary_numeric (wellFormed : task.WellFormed) (var : ℕ) :
    task.isNecessary (.numeric var) = true ↔
      task.FeedsMetric var ∨ task.Relevant (.numeric var) := by
  rw [← mem_metricVars wellFormed]
  simp [isNecessary, mem_relevantVars_iff, or_comm]

theorem relevant_isNecessary {var : CGVar} (isRelevant : task.Relevant var) :
    task.isNecessary var = true := by
  simp [isNecessary, mem_relevantVars_iff, isRelevant]

theorem feedsMetric_of_computation {rule : AxiomNumericComputation} (isRule : rule ∈ task.axiomsNumeric)
    (feeds : task.FeedsMetric rule.effectVar) :
    task.FeedsMetric rule.leftVar ∧ task.FeedsMetric rule.rightVar := by
  have isOperand : ∀ operand ∈ [rule.leftVar, rule.rightVar],
      operand ∈ task.computationOperands rule.effectVar := by
    intro operand member
    simp only [computationOperands, List.mem_flatMap, List.mem_filter, decide_eq_true_eq]
    exact ⟨rule, ⟨isRule, rfl⟩, member⟩
  have extend : ∀ effects : List NumericEffect, task.TracedBy effects rule.effectVar →
      ∀ operand ∈ [rule.leftVar, rule.rightVar], task.TracedBy effects operand := by
    intro effects traced operand member
    induction effects with
    | nil => exact Relation.ReflTransGen.tail traced (isOperand operand member)
    | cons effect earlier inductionHypothesis =>
      obtain early | ⟨isTraced, reaches⟩ := traced
      · exact .inl (inductionHypothesis early)
      · exact .inr ⟨isTraced, reaches.tail (isOperand operand member)⟩
  exact ⟨extend _ feeds _ (by simp), extend _ feeds _ (by simp)⟩

theorem necessary_axiomsClosed (wellFormed : task.WellFormed) :
    AxiomsClosed (fun var => task.isNecessary var = true) task where
  rules := by
    intro rule isRule
    simp only [isNecessary_propositional]
    exact relevant_axiomsClosed.rules rule isRule
  comparisons := by
    intro rule isRule isNecessary
    rw [isNecessary_propositional] at isNecessary
    obtain ⟨leftRelevant, rightRelevant⟩ := relevant_axiomsClosed.comparisons rule isRule isNecessary
    exact ⟨relevant_isNecessary leftRelevant, relevant_isNecessary rightRelevant⟩
  computations := by
    intro rule isRule
    simp only [isNecessary_numeric wellFormed]
    rintro (feeds | isRelevant)
    · obtain ⟨leftFeeds, rightFeeds⟩ := feedsMetric_of_computation isRule feeds
      exact ⟨.inl leftFeeds, .inl rightFeeds⟩
    · obtain ⟨leftRelevant, rightRelevant⟩ := relevant_axiomsClosed.computations rule isRule isRelevant
      exact ⟨.inr leftRelevant, .inr rightRelevant⟩

end Task

end CutPlan.Preprocess
