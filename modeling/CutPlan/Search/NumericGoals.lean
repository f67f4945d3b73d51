import CutPlan.Search.NumericConditions

/-! # Numeric goals

`build_numeric_goals` replaces a goal that rules derive from comparisons by the facts and comparisons in
the bodies of the rules, of all rules together and whatever truth value they ask of a comparison.
-/

namespace CutPlan.Search

open CutPlan.Lib CutPlan.Sas

namespace ConditionTask

variable (task : ConditionTask)

/-! ## Tables of the rules -/

/-- The conditions of all rules that affect the variable. -/
def bodyFacts (var : ℕ) : List Condition :=
  (task.logicAxioms.filter fun rule => rule.affectedVariable = var).flatMap LogicAxiom.conditions

def factTable (var : ℕ) : List Condition :=
  (task.bodyFacts var).filter fun fact => (task.factToAxiom fact.var).isNone

/-- The comparisons by their variables; their values are not kept. -/
def axiomTable (var : ℕ) : List ℕ :=
  ((task.bodyFacts var).filter fun fact => (task.factToAxiom fact.var).isSome).map Condition.var

/-! ## Goals -/

def propositionalGoals (goal : Condition) : List Condition :=
  if (task.axiomTable goal.var).isEmpty then [] else task.factTable goal.var

/-- The numbers of the conditions of a comparison, without those in which no variable occurs. -/
def nonemptyConditions (table : ConditionTable) (var : ℕ) : List ℕ :=
  match task.factToAxiom var with
  | none => []
  | some number => (table.ids.getD number []).filter fun own => !task.isEmpty (table.condition own)

def originalGoals (table : ConditionTable) (goal : Condition) : List ℕ :=
  (task.axiomTable goal.var).flatMap (task.nonemptyConditions table)

/-- What the loops over two positions of a list visit. -/
def pairs : List ℕ → List (ℕ × ℕ)
  | [] => []
  | number :: numbers => numbers.map (Prod.mk number) ++ pairs numbers

/-- `list<int>(n_conditions)` is a list of so many zeros; nothing reads it. -/
def addRedundantGoal (table : ConditionTable) (pair : ℕ × ℕ) : ConditionTable × List ℕ :=
  let redundant := (table.condition pair.1).add (table.condition pair.2)
  if task.isEmpty redundant then (table, [])
  else
    ({ conditions := table.conditions ++ [redundant]
       ids := table.ids ++ [List.replicate table.conditions.length 0] }, [table.conditions.length])

def addSums (table : ConditionTable) : List (ℕ × ℕ) → ConditionTable × List ℕ
  | [] => (table, [])
  | pair :: pairs =>
    let (afterPair, added) := task.addRedundantGoal table pair
    let (final, others) := addSums afterPair pairs
    (final, added ++ others)

def addRedundantGoals (table : ConditionTable) : List (List ℕ) → ConditionTable × List (List ℕ)
  | [] => (table, [])
  | original :: originals =>
    let (afterGoal, added) := task.addSums table (pairs original)
    let (final, others) := addRedundantGoals afterGoal originals
    (final, (original ++ added) :: others)

/-- The conditions with the sums that are added, and the numeric goals of every goal. -/
def buildNumericGoals : ConditionTable × List (List ℕ) :=
  let table := task.buildNumericConditions
  let originals := task.goals.map (task.originalGoals table)
  if task.redundantConstraints then task.addRedundantGoals table originals else (table, originals)

/-- What the relaxed goal operator asks for holds in the state. -/
structure GoalsHold (state : GlobalState) : Prop where
  numeric : ∀ numbers ∈ task.buildNumericGoals.2, ∀ number ∈ numbers,
    number < task.buildNumericGoals.1.conditions.length ∧
      task.Satisfies state.numericVars (task.buildNumericGoals.1.condition number)
  propositional : ∀ goal ∈ task.goals, ∀ fact ∈ task.propositionalGoals goal,
    state.values fact.var = fact.val

/-! ## Bodies -/

/-- The fact holds, where a comparison is taken to be true if variables occur in it. -/
def HoldsIfTrue (state : GlobalState) (fact : Condition) : Prop :=
  match task.factToAxiom fact.var with
  | none => state.values fact.var = fact.val
  | some number => ∀ comparison, task.compAxioms[number]? = some comparison →
    ∀ condition ∈ task.conditionsOf comparison, task.isEmpty condition = false →
      task.Satisfies state.numericVars condition

def HasComparison (var : ℕ) : Prop :=
  ∃ rule ∈ task.logicAxioms, rule.affectedVariable = var ∧
    ∃ fact ∈ rule.conditions, (task.factToAxiom fact.var).isSome = true

/-- All rules of the goals that depend on comparisons have bodies that hold. -/
def BodiesHold (state : GlobalState) : Prop :=
  ∀ goal ∈ task.goals, task.HasComparison goal.var →
    ∀ rule ∈ task.logicAxioms, rule.affectedVariable = goal.var →
      ∀ fact ∈ rule.conditions, task.HoldsIfTrue state fact

/-- Goals that depend on comparisons have one rule, which gives them the value that is asked for instead
of the default one; its comparisons are linear and asked to be true. -/
def SoleRules : Prop :=
  ∀ goal ∈ task.goals, task.HasComparison goal.var →
    goal.val ≠ task.defaultAxiomValues goal.var ∧
    ∀ rule ∈ task.logicAxioms, rule.affectedVariable = goal.var →
      (∀ other ∈ task.logicAxioms, other.affectedVariable = goal.var → other = rule) ∧
      ∀ fact ∈ rule.conditions, ∀ number, task.factToAxiom fact.var = some number →
        fact.val = 0 ∧ ∀ comparison, task.compAxioms[number]? = some comparison →
          task.IsLinearComparison comparison

variable {task}

/-! ## Membership -/

theorem mem_bodyFacts {var : ℕ} {fact : Condition} :
    fact ∈ task.bodyFacts var ↔
      ∃ rule ∈ task.logicAxioms, rule.affectedVariable = var ∧ fact ∈ rule.conditions := by
  simp [bodyFacts, and_assoc]

theorem axiomTable_isEmpty_iff {var : ℕ} :
    (task.axiomTable var).isEmpty = false ↔ task.HasComparison var := by
  rw [List.isEmpty_eq_false_iff_exists_mem]
  unfold axiomTable HasComparison
  constructor
  · rintro ⟨id, member⟩
    obtain ⟨fact, isFact, rfl⟩ := List.mem_map.mp member
    obtain ⟨inBody, isComparison⟩ := List.mem_filter.mp isFact
    obtain ⟨rule, isRule, own, isCondition⟩ := mem_bodyFacts.mp inBody
    exact ⟨rule, isRule, own, fact, isCondition, isComparison⟩
  · rintro ⟨rule, isRule, own, fact, isCondition, isComparison⟩
    have inBody := mem_bodyFacts.mpr ⟨rule, isRule, own, isCondition⟩
    exact ⟨fact.var, List.mem_map_of_mem (List.mem_filter.mpr ⟨inBody, isComparison⟩)⟩

/-- The numbers are those of the conditions of the comparison in which variables occur. -/
theorem nonemptyConditions_iff {var number : ℕ} (isNumber : task.factToAxiom var = some number)
    {comparison : ComparisonAxiom} (isComparison : task.compAxioms[number]? = some comparison)
    {holds : LinearNumericCondition → Prop} :
    (∀ own ∈ task.nonemptyConditions task.buildNumericConditions var,
      own < task.buildNumericConditions.conditions.length ∧
        holds (task.buildNumericConditions.condition own)) ↔
    ∀ condition ∈ task.conditionsOf comparison, task.isEmpty condition = false → holds condition := by
  obtain ⟨numbers, isNumbers, within, same⟩ := buildNumericConditions_names isComparison
  unfold nonemptyConditions
  rw [isNumber, ← same]
  simp only [List.getD_eq_getElem?_getD, isNumbers, Option.getD_some, List.mem_filter,
    Bool.not_eq_true', List.forall_mem_map]
  constructor
  · intro all own member nonempty
    exact (all own ⟨member, nonempty⟩).2
  · intro all own member
    exact ⟨within own member.1, all own member.1 member.2⟩

/-! ## Sums -/

theorem satisfies_add {numericVars : ℕ → ℚ} {first second : LinearNumericCondition}
    (isFirst : task.Satisfies numericVars first) (isSecond : task.Satisfies numericVars second) :
    task.Satisfies numericVars (first.add second) := by
  unfold Satisfies at *
  rw [ProxyTask.eval_add]
  exact add_nonneg isFirst isSecond

/-- The number stands for a condition that is satisfied. -/
def Holds (task : ConditionTask) (numericVars : ℕ → ℚ) (table : ConditionTable) (number : ℕ) : Prop :=
  number < table.conditions.length ∧ task.Satisfies numericVars (table.condition number)

theorem Holds.extend {numericVars : ℕ → ℚ} {before after : ConditionTable}
    (extension : before.Extends after) {number : ℕ} (lt : number < before.conditions.length) :
    task.Holds numericVars after number ↔ task.Holds numericVars before number := by
  unfold Holds
  rw [extension.condition lt]
  exact ⟨fun holds => ⟨lt, holds.2⟩, fun holds => ⟨lt.trans_le extension.length_le, holds.2⟩⟩

variable (task) in
theorem addRedundantGoal_grows (table : ConditionTable) (pair : ℕ × ℕ) :
    table.Grows (task.addRedundantGoal table pair).1 := by
  unfold addRedundantGoal
  simp only
  split
  · exact .refl table
  · exact ConditionTable.grows_of_append table _ _

theorem addRedundantGoal_holds {numericVars : ℕ → ℚ} {table : ConditionTable} {pair : ℕ × ℕ}
    (isFirst : task.Holds numericVars table pair.1) (isSecond : task.Holds numericVars table pair.2) :
    ∀ number ∈ (task.addRedundantGoal table pair).2,
      task.Holds numericVars (task.addRedundantGoal table pair).1 number := by
  unfold addRedundantGoal
  simp only
  split
  · intro number member
    cases member
  · intro number member
    rw [List.mem_singleton.mp member]
    refine ⟨by simp, ?_⟩
    simp only [ConditionTable.condition, List.getD_eq_getElem?_getD, List.getElem?_concat_length,
      Option.getD_some]
    exact satisfies_add isFirst.2 isSecond.2

variable (task) in
theorem addSums_grows (table : ConditionTable) (pairs : List (ℕ × ℕ)) :
    table.Grows (task.addSums table pairs).1 := by
  induction pairs generalizing table with
  | nil => exact .refl table
  | cons pair pairs inductionHypothesis =>
    exact (addRedundantGoal_grows task table pair).trans (inductionHypothesis _)

theorem addSums_holds {numericVars : ℕ → ℚ} {table : ConditionTable} {pairs : List (ℕ × ℕ)}
    (hold : ∀ pair ∈ pairs, task.Holds numericVars table pair.1 ∧ task.Holds numericVars table pair.2) :
    ∀ number ∈ (task.addSums table pairs).2,
      task.Holds numericVars (task.addSums table pairs).1 number := by
  induction pairs generalizing table with
  | nil =>
    intro number member
    cases member
  | cons pair pairs inductionHypothesis =>
    have extension := (addRedundantGoal_grows task table pair).toExtends
    obtain ⟨isFirst, isSecond⟩ := hold pair List.mem_cons_self
    have hold_rest : ∀ other ∈ pairs,
        task.Holds numericVars (task.addRedundantGoal table pair).1 other.1 ∧
          task.Holds numericVars (task.addRedundantGoal table pair).1 other.2 := by
      intro other member
      obtain ⟨otherFirst, otherSecond⟩ := hold other (List.mem_cons_of_mem pair member)
      exact ⟨(Holds.extend extension otherFirst.1).mpr otherFirst,
        (Holds.extend extension otherSecond.1).mpr otherSecond⟩
    intro number member
    cases List.mem_append.mp member with
    | inl isAdded =>
      have holds := addRedundantGoal_holds isFirst isSecond number isAdded
      exact (Holds.extend (addSums_grows task _ pairs).toExtends holds.1).mpr holds
    | inr isOther => exact inductionHypothesis hold_rest number isOther

theorem mem_of_mem_pairs {numbers : List ℕ} {pair : ℕ × ℕ} (member : pair ∈ pairs numbers) :
    pair.1 ∈ numbers ∧ pair.2 ∈ numbers := by
  induction numbers with
  | nil => cases member
  | cons number numbers inductionHypothesis =>
    cases List.mem_append.mp member with
    | inl isOwn =>
      obtain ⟨other, isOther, rfl⟩ := List.mem_map.mp isOwn
      exact ⟨List.mem_cons_self, List.mem_cons_of_mem number isOther⟩
    | inr isOther =>
      obtain ⟨isFirst, isSecond⟩ := inductionHypothesis isOther
      exact ⟨List.mem_cons_of_mem number isFirst, List.mem_cons_of_mem number isSecond⟩

variable (task) in
theorem addRedundantGoals_grows (table : ConditionTable) (originals : List (List ℕ)) :
    table.Grows (task.addRedundantGoals table originals).1 := by
  induction originals generalizing table with
  | nil => exact .refl table
  | cons original originals inductionHypothesis =>
    exact (addSums_grows task table (pairs original)).trans (inductionHypothesis _)

/-- With the sums, the numeric goals hold if and only if the original ones do. -/
theorem addRedundantGoals_holds_iff {numericVars : ℕ → ℚ} {table : ConditionTable}
    {originals : List (List ℕ)}
    (within : ∀ original ∈ originals, ∀ number ∈ original, number < table.conditions.length) :
    (∀ numbers ∈ (task.addRedundantGoals table originals).2, ∀ number ∈ numbers,
      task.Holds numericVars (task.addRedundantGoals table originals).1 number) ↔
    ∀ original ∈ originals, ∀ number ∈ original, task.Holds numericVars table number := by
  induction originals generalizing table with
  | nil => simp [addRedundantGoals]
  | cons original originals inductionHypothesis =>
    rw [List.forall_mem_cons] at within
    have extension := (addSums_grows task table (pairs original)).toExtends
    have extensionRest := (addRedundantGoals_grows task
      (task.addSums table (pairs original)).1 originals).toExtends
    have rest := @inductionHypothesis (task.addSums table (pairs original)).1
      fun other member number isNumber => (within.2 other member number isNumber).trans_le extension.length_le
    have unfolded : task.addRedundantGoals table (original :: originals) =
        ((task.addRedundantGoals (task.addSums table (pairs original)).1 originals).1,
          (original ++ (task.addSums table (pairs original)).2) ::
            (task.addRedundantGoals (task.addSums table (pairs original)).1 originals).2) := rfl
    have restSame : (∀ other ∈ originals, ∀ number ∈ other,
          task.Holds numericVars (task.addSums table (pairs original)).1 number) ↔
        ∀ other ∈ originals, ∀ number ∈ other, task.Holds numericVars table number :=
      forall₂_congr fun other isOther => forall₂_congr fun number isNumber =>
        Holds.extend extension (within.2 other isOther number isNumber)
    rw [unfolded, List.forall_mem_cons, List.forall_mem_cons, rest, restSame]
    refine and_congr_left fun _ => ?_
    constructor
    · intro hold number isNumber
      rw [← Holds.extend (extension.trans extensionRest) (within.1 number isNumber)]
      exact hold number (List.mem_append_left _ isNumber)
    · intro hold number member
      cases List.mem_append.mp member with
      | inl isOriginal =>
        exact (Holds.extend (extension.trans extensionRest) (within.1 number isOriginal)).mpr
          (hold number isOriginal)
      | inr isAdded =>
        have holds := addSums_holds (fun pair isPair =>
          ⟨hold pair.1 (mem_of_mem_pairs isPair).1, hold pair.2 (mem_of_mem_pairs isPair).2⟩) number isAdded
        exact (Holds.extend extensionRest holds.1).mpr holds

/-! ## Goals and bodies -/

theorem nonemptyConditions_within {var own : ℕ}
    (member : own ∈ task.nonemptyConditions task.buildNumericConditions var) :
    own < task.buildNumericConditions.conditions.length := by
  cases isNumber : task.factToAxiom var with
  | none =>
    rw [nonemptyConditions, isNumber] at member
    cases member
  | some number =>
    obtain ⟨comparison, isComparison, -⟩ := factToAxiom_eq_some isNumber
    obtain ⟨numbers, isNumbers, within, -⟩ := buildNumericConditions_names isComparison
    rw [nonemptyConditions, isNumber] at member
    simp only [List.getD_eq_getElem?_getD, isNumbers, Option.getD_some] at member
    exact within own (List.mem_filter.mp member).1

/-- The conditions of a comparison in a body hold if and only if it holds when it is taken to be true. -/
theorem holdsIfTrue_iff {state : GlobalState} {fact : Condition}
    (isComparison : (task.factToAxiom fact.var).isSome = true) :
    (∀ own ∈ task.nonemptyConditions task.buildNumericConditions fact.var,
      task.Holds state.numericVars task.buildNumericConditions own) ↔ task.HoldsIfTrue state fact := by
  obtain ⟨number, isNumber⟩ := Option.isSome_iff_exists.mp isComparison
  obtain ⟨comparison, isAxiom, -⟩ := factToAxiom_eq_some isNumber
  rw [HoldsIfTrue, isNumber]
  refine Iff.trans (nonemptyConditions_iff isNumber isAxiom) ⟨?_, fun hold => hold comparison isAxiom⟩
  intro hold other isOther
  rw [isAxiom, Option.some.injEq] at isOther
  exact isOther ▸ hold

theorem originalGoals_hold_iff {state : GlobalState} {goal : Condition} :
    (∀ number ∈ task.originalGoals task.buildNumericConditions goal,
      task.Holds state.numericVars task.buildNumericConditions number) ↔
    ∀ fact ∈ task.bodyFacts goal.var, (task.factToAxiom fact.var).isSome = true →
      task.HoldsIfTrue state fact := by
  unfold originalGoals axiomTable
  simp only [List.mem_flatMap, List.mem_map, List.mem_filter]
  constructor
  · intro hold fact inBody isComparison
    rw [← holdsIfTrue_iff isComparison]
    intro own member
    exact hold own ⟨fact.var, ⟨fact, ⟨inBody, isComparison⟩, rfl⟩, member⟩
  · rintro hold own ⟨var, ⟨fact, ⟨inBody, isComparison⟩, rfl⟩, member⟩
    exact (holdsIfTrue_iff isComparison).mpr (hold fact inBody isComparison) own member

theorem propositionalGoals_hold_iff {state : GlobalState} {goal : Condition} :
    (∀ fact ∈ task.propositionalGoals goal, state.values fact.var = fact.val) ↔
    (task.HasComparison goal.var → ∀ fact ∈ task.bodyFacts goal.var, task.factToAxiom fact.var = none →
      task.HoldsIfTrue state fact) := by
  have same (fact : Condition) (notNumeric : task.factToAxiom fact.var = none) :
      task.HoldsIfTrue state fact ↔ state.values fact.var = fact.val := by
    rw [HoldsIfTrue, notNumeric]
  unfold propositionalGoals
  cases noComparison : (task.axiomTable goal.var).isEmpty with
  | true =>
    have none : ¬ task.HasComparison goal.var := by
      rw [← axiomTable_isEmpty_iff, noComparison]
      exact Bool.noConfusion
    simp [none]
  | false =>
    have some := axiomTable_isEmpty_iff.mp noComparison
    simp only [factTable, List.mem_filter, Option.isNone_iff_eq_none, some, true_imp_iff,
      Bool.false_eq_true, if_false]
    constructor
    · intro hold fact inBody notNumeric
      exact (same fact notNumeric).mpr (hold fact ⟨inBody, notNumeric⟩)
    · rintro hold fact ⟨inBody, notNumeric⟩
      exact (same fact notNumeric).mp (hold fact inBody notNumeric)

theorem bodiesHold_iff {state : GlobalState} :
    task.BodiesHold state ↔ ∀ goal ∈ task.goals, task.HasComparison goal.var →
      ∀ fact ∈ task.bodyFacts goal.var, task.HoldsIfTrue state fact := by
  refine forall₂_congr fun goal _ => imp_congr_right fun _ => ⟨fun hold fact inBody => ?_, ?_⟩
  · obtain ⟨rule, isRule, own, isCondition⟩ := mem_bodyFacts.mp inBody
    exact hold rule isRule own fact isCondition
  · intro hold rule isRule own fact isCondition
    exact hold fact (mem_bodyFacts.mpr ⟨rule, isRule, own, isCondition⟩)

theorem numericGoals_hold_iff {state : GlobalState} :
    (∀ numbers ∈ task.buildNumericGoals.2, ∀ number ∈ numbers,
      task.Holds state.numericVars task.buildNumericGoals.1 number) ↔
    ∀ goal ∈ task.goals, ∀ number ∈ task.originalGoals task.buildNumericConditions goal,
      task.Holds state.numericVars task.buildNumericConditions number := by
  rw [← List.forall_mem_map (f := task.originalGoals task.buildNumericConditions)
    (P := fun original => ∀ number ∈ original,
      task.Holds state.numericVars task.buildNumericConditions number)]
  unfold buildNumericGoals
  simp only
  split
  · apply addRedundantGoals_holds_iff
    rw [List.forall_mem_map]
    intro goal _ number member
    obtain ⟨var, _, isOwn⟩ := List.mem_flatMap.mp member
    exact nonemptyConditions_within isOwn
  · rfl

theorem buildNumericGoals_grows (task : ConditionTask) :
    task.buildNumericConditions.Grows task.buildNumericGoals.1 := by
  unfold buildNumericGoals
  simp only
  split
  · exact addRedundantGoals_grows task _ _
  · exact .refl _

theorem goalsHold_iff {state : GlobalState} : task.GoalsHold state ↔ task.BodiesHold state := by
  have numeric := @numericGoals_hold_iff task state
  rw [bodiesHold_iff]
  constructor
  · intro holds goal isGoal hasComparison fact inBody
    cases isNumber : task.factToAxiom fact.var with
    | none =>
      exact propositionalGoals_hold_iff.mp (holds.propositional goal isGoal) hasComparison fact inBody
        isNumber
    | some number =>
      exact originalGoals_hold_iff.mp (numeric.mp holds.numeric goal isGoal) fact inBody
        (by rw [isNumber]; rfl)
  · intro hold
    constructor
    · refine numeric.mpr fun goal isGoal => originalGoals_hold_iff.mpr ?_
      intro fact inBody isComparison
      obtain ⟨rule, isRule, own, isCondition⟩ := mem_bodyFacts.mp inBody
      exact hold goal isGoal ⟨rule, isRule, own, fact, isCondition, isComparison⟩ fact inBody
    · intro goal isGoal
      exact propositionalGoals_hold_iff.mpr fun hasComparison fact inBody _ =>
        hold goal isGoal hasComparison fact inBody

/-- The state satisfies all goals, and the values of derived variables are those of the axioms. -/
def IsGoalState (task : ConditionTask) (state : GlobalState) : Prop :=
  task.Evaluated state ∧ Condition.allHold task.goals state.values = true

/-- A sole rule fires whenever its variable does not have the default value. -/
theorem SoleRules.bodiesHold (sole : task.SoleRules) {state : GlobalState}
    (isGoalState : task.IsGoalState state) : task.BodiesHold state := by
  obtain ⟨evaluated, satisfied⟩ := isGoalState
  intro goal isGoal hasComparison rule isRule own fact isCondition
  obtain ⟨notDefault, rules⟩ := sole goal isGoal hasComparison
  obtain ⟨only, positive⟩ := rules rule isRule own
  have value : state.values goal.var = goal.val := by
    simpa using List.all_eq_true.mp satisfied goal isGoal
  rw [← value, ← own] at notDefault
  obtain ⟨fired, isFired, sameVariable, -, bodyHolds⟩ := evaluated.rules rule isRule notDefault
  rw [only fired isFired (sameVariable.trans own)] at bodyHolds
  have factHolds : state.values fact.var = fact.val := by
    simpa using List.all_eq_true.mp bodyHolds fact isCondition
  unfold HoldsIfTrue
  cases isNumber : task.factToAxiom fact.var with
  | none => exact factHolds
  | some number =>
    intro comparison isAxiom condition isOwn _
    obtain ⟨isTrue, linear⟩ := positive fact isCondition number isNumber
    obtain ⟨found, isFound, affected⟩ := factToAxiom_eq_some isNumber
    rw [isAxiom, Option.some.injEq] at isFound
    subst isFound
    have holds := evaluated.comparison_holds (List.mem_of_getElem? isAxiom)
      (by rw [affected, factHolds, isTrue])
    exact (conditionsOf_holdsIn evaluated (linear comparison isAxiom) holds condition isOwn).nonneg

/-- The numeric goals are necessary if and only if all goal states satisfy the bodies of all rules; one
rule a goal, with true comparisons, is enough. -/
theorem numericGoals_necessary (task : ConditionTask) :
    ((∀ state, task.IsGoalState state → task.GoalsHold state) ↔
      ∀ state, task.IsGoalState state → task.BodiesHold state) ∧
    (task.SoleRules → ∀ state, task.IsGoalState state → task.GoalsHold state) :=
  ⟨forall₂_congr fun _ _ => goalsHold_iff,
    fun sole _ isGoalState => goalsHold_iff.mpr (sole.bodiesHold isGoalState)⟩

end ConditionTask

/-! ## A small task -/

theorem eitherTask_noAxioms : ∀ assAxiom ∈ ([] : List AssignmentAxiom),
    (fun var : ℕ => if var = 0 then NumType.regular else .constant) assAxiom.affectedVariable = .derived := by
  simp

/-- The goal is derived if the variable is at least 5, and also from a fact. -/
def eitherTask : ConditionTask where
  numericVarTypes := fun var => if var = 0 then .regular else .constant
  assAxioms := []
  assAxioms_derived := eitherTask_noAxioms
  numericVarCount := 2
  initialStateNumeric := fun var => if var = 0 then 0 else 5
  regular_lt_count := by
    intro var regular
    by_contra beyond
    have notFirst : var ≠ 0 := by omega
    simp [notFirst] at regular
  compAxioms := [{ affectedVariable := 1, op := .ge, varLhs := 0, varRhs := 1 }]
  logicAxioms :=
    [{ conditions := [{ var := 1, val := 0 }], affectedVariable := 2, newValue := 0 },
      { conditions := [{ var := 0, val := 0 }], affectedVariable := 2, newValue := 0 }]
  defaultAxiomValues := fun _ => 1
  goals := [{ var := 2, val := 0 }]
  redundantConstraints := true
  logicAxioms_derive := by simp

/-- The fact holds, and the variable is 0. -/
def eitherGoalState : GlobalState where
  values := fun var => if var = 1 then 1 else 0
  numericVars := eitherTask.getNumericVars fun _ => 0

theorem eitherGoalState_isGoalState : eitherTask.IsGoalState eitherGoalState := by
  refine ⟨⟨⟨fun _ => 0, rfl⟩, ?_, ?_⟩, by decide⟩
  · intro comparison isComparison
    rw [List.mem_singleton.mp isComparison]
    decide +kernel
  · intro rule isRule _
    have isGoalVariable : rule.affectedVariable = 2 := by
      rcases List.mem_pair.mp isRule with rfl | rfl <;> rfl
    rw [isGoalVariable]
    exact ⟨{ conditions := [{ var := 0, val := 0 }], affectedVariable := 2, newValue := 0 },
      List.mem_cons_of_mem _ (List.mem_singleton_self _), rfl, rfl, by decide⟩

theorem eitherTask_excludes_goal_state :
    ¬ ∀ state, eitherTask.IsGoalState state → eitherTask.GoalsHold state := by
  intro necessary
  have numeric := (necessary eitherGoalState eitherGoalState_isGoalState).numeric [0]
  obtain ⟨-, satisfied⟩ := numeric (by decide +kernel) 0 (List.mem_singleton_self 0)
  have negative : ¬ eitherTask.Satisfies eitherGoalState.numericVars
      (eitherTask.buildNumericGoals.1.condition 0) := by
    unfold ConditionTask.Satisfies
    decide +kernel
  exact negative satisfied

end CutPlan.Search
