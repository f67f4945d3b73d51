import CutPlan.Search.NumericGoals

/-! # Redundant constraints

`build_action` collects the numbers of the comparisons that an operator and its effects ask for and adds
the sums of two conditions.  One function for this takes the numbers of comparisons, the other one the
numbers of conditions; both are called with the former.
-/

namespace CutPlan.Search

open CutPlan.Lib CutPlan.Sas

structure OperatorTask extends ConditionTask where
  operators : List GlobalOperator
  options : ProxyOptions

namespace ConditionTable

/-- Numbers that are out of range have no condition. -/
def condition? (table : ConditionTable) (number : ℤ) : Option LinearNumericCondition :=
  if 0 ≤ number then table.conditions[number.toNat]? else none

def numbers? (table : ConditionTable) (id : ℤ) : Option (List ℕ) :=
  if 0 ≤ id then table.ids[id.toNat]? else none

end ConditionTable

/-- `std::set::insert`, with the set as an ascending list. -/
def insertId (id : ℤ) (ids : List ℤ) : List ℤ :=
  if id ∈ ids then ids else ids.orderedInsert (· ≤ ·) id

namespace OperatorTask

variable (task : OperatorTask)

/-! ## Preconditions -/

/-- Some condition of a comparison has made the goal variable numeric. -/
def isNumericGoal (var : ℕ) : Bool :=
  task.goals.any fun goal =>
    goal.var = var && !(task.originalGoals task.buildNumericConditions goal).isEmpty

/-- `fact_to_axiom_map` once the numeric goals are built: -1 for variables that are not numeric, -2 for
numeric goals. -/
def factToAxiomMap (var : ℕ) : ℤ :=
  if task.isNumericGoal var then -2
  else
    match task.factToAxiom var with
    | some number => number
    | none => -1

/-- Negative comparisons are ignored. -/
def buildPrecondition (conditions : List Condition) : List ℤ :=
  conditions.foldl
    (fun ids condition =>
      if task.factToAxiomMap condition.var = -1 || 0 < condition.val then ids
      else insertId (task.factToAxiomMap condition.var) ids)
    []

/-! ## Sums -/

/-- Reads out of range and writes to a list that is not there are not defined. -/
def addRedundantConstraint (table : ConditionTable) (x y : ℤ) (target : Option (List ℤ)) :
    Option (ConditionTable × Option (List ℤ)) := do
  let first ← table.condition? x
  let second ← table.condition? y
  let redundant := first.add second
  if task.isEmpty redundant then return (table, target)
  let ids ← target
  return ({ conditions := table.conditions ++ [redundant]
            ids := table.ids ++ [[table.conditions.length]] }, some (insertId table.ids.length ids))

def addAll : List (ℤ × ℤ) → ConditionTable → Option (List ℤ) →
    Option (ConditionTable × Option (List ℤ))
  | [], table, target => some (table, target)
  | (x, y) :: pairs, table, target => do
    let (table, target) ← task.addRedundantConstraint table x y target
    addAll pairs table target

/-- Every number of a list with those of the later lists. -/
def crossPairs : List (List ℕ) → List (ℤ × ℤ)
  | [] => []
  | numbers :: rest =>
    numbers.flatMap (fun x : ℕ => rest.flatten.map fun y : ℕ => ((x : ℤ), (y : ℤ))) ++ crossPairs rest

/-- The function with two arguments, which looks up the conditions of the comparisons. -/
def buildWithin (table : ConditionTable) (originals : List ℤ) (target : Option (List ℤ)) :
    Option (ConditionTable × Option (List ℤ)) := do
  let lists ← originals.mapM table.numbers?
  task.addAll (crossPairs lists) table target

/-- The function with three arguments, which takes its arguments for numbers of conditions. -/
def buildBetween (table : ConditionTable) (list1 list2 : List ℤ) (target : Option (List ℤ)) :
    Option (ConditionTable × Option (List ℤ)) :=
  task.addAll (list1.flatMap fun x => (list2.filter (· ≠ x)).map (Prod.mk x)) table target

/-- The two calls for an effect. -/
def buildRedundantConstraints (table : ConditionTable) (originals numList : List ℤ)
    (target : Option (List ℤ)) : Option (ConditionTable × Option (List ℤ)) :=
  if task.redundantConstraints then do
    let (table, target) ← task.buildWithin table originals target
    task.buildBetween table originals numList target
  else some (table, target)

/-! ## Actions -/

/-- The lists of an action that hold numbers of comparisons. -/
structure ActionConditions where
  numList : List ℤ
  effNumConditions : List (List ℤ)
  numEffNumConditions : List (List ℤ)
  assignEffNumConditions : List (List ℤ)
  linearEffNumConditions : List (List ℤ)

def setAt (lists : List (List ℤ)) (index : ℕ) (target : Option (List ℤ)) : List (List ℤ) :=
  match target with
  | some ids => lists.set index ids
  | none => lists

/-- A conditional effect on a propositional variable. -/
def addEffect (built : ConditionTable × ActionConditions) (effect : GlobalEffect) :
    Option (ConditionTable × ActionConditions) :=
  let (table, action) := built
  if effect.conditions.isEmpty then some (table, action)
  else do
    let originals := task.buildPrecondition effect.conditions
    let (table, target) ← task.buildRedundantConstraints table originals action.numList (some originals)
    return (table, { action with
      effNumConditions := action.effNumConditions ++ [target.getD originals] })

inductive EffectKind where
  | skipped
  | simple
  | assignment
  | linear
  deriving DecidableEq, Repr

/-- The branch of the loop over the numeric effects. -/
def effectKind (effect : AssignEffect) : EffectKind :=
  if task.numericVarTypes effect.affVar = .regular then
    let expression := task.artificialVariables effect.assVar
    if task.isSimpleEffect task.options effect expression then .simple
    else if task.isAssignmentEffect task.options effect expression then .assignment
    else .linear
  else .skipped

/-- Simple and linear effects write to the list that an effect on a propositional variable with the same
number has. -/
def addNumericEffect (built : ConditionTable × ActionConditions) (effect : AssignEffect) :
    Option (ConditionTable × ActionConditions) :=
  let (table, action) := built
  let originals := task.buildPrecondition effect.conditions
  match task.effectKind effect with
  | .skipped => some (table, action)
  | .simple =>
    if effect.conditions.isEmpty then some (table, action)
    else do
      let index := action.numEffNumConditions.length
      let (table, target) ← task.buildRedundantConstraints table originals action.numList
        action.effNumConditions[index]?
      return (table, { action with
        numEffNumConditions := action.numEffNumConditions ++ [originals]
        effNumConditions := setAt action.effNumConditions index target })
  | .assignment =>
    if effect.conditions.isEmpty then some (table, action)
    else do
      let (table, target) ← task.buildRedundantConstraints table originals action.numList
        (some originals)
      return (table, { action with
        assignEffNumConditions := action.assignEffNumConditions ++ [target.getD originals] })
  | .linear =>
    if effect.conditions.isEmpty then
      some (table, { action with linearEffNumConditions := action.linearEffNumConditions ++ [originals] })
    else do
      let index := action.linearEffNumConditions.length
      let (table, target) ← task.buildRedundantConstraints table originals action.numList
        action.effNumConditions[index]?
      return (table, { action with
        linearEffNumConditions := action.linearEffNumConditions ++ [originals]
        effNumConditions := setAt action.effNumConditions index target })

def buildConditions (table : ConditionTable) (op : GlobalOperator) :
    Option (ConditionTable × ActionConditions) := do
  let originals := task.buildPrecondition op.preconditions
  let (table, target) ←
    if task.redundantConstraints then task.buildWithin table originals (some originals)
    else some (table, some originals)
  let action : ActionConditions :=
    { numList := target.getD originals
      effNumConditions := []
      numEffNumConditions := []
      assignEffNumConditions := []
      linearEffNumConditions := [] }
  let built ← op.effects.foldlM task.addEffect (table, action)
  op.assignEffects.foldlM task.addNumericEffect built

/-- Rules are built like operators. -/
def axiomOperator (rule : LogicAxiom) : GlobalOperator where
  preconditions := rule.conditions
  effects := [{ var := rule.affectedVariable, val := rule.newValue, conditions := [] }]
  assignEffects := []
  name := "OpLogicAxiom"
  cost := 0

def allOperators : List GlobalOperator :=
  task.operators ++ task.logicAxioms.map axiomOperator

def buildAll : ConditionTable → List GlobalOperator → Option (ConditionTable × List ActionConditions)
  | table, [] => some (table, [])
  | table, op :: ops => do
    let (table, action) ← task.buildConditions table op
    let (table, actions) ← buildAll table ops
    return (table, action :: actions)

def buildActions : Option (ConditionTable × List ActionConditions) :=
  task.buildAll task.buildNumericGoals.1 task.allOperators

/-! ## Linear effects -/

/-- The condition under which the effect increases its variable, without the constant of the effect. -/
def conditionPlus (effect : LinearEffect) : LinearNumericCondition where
  coefficients := fun var => effect.coefficients var - if var = effect.lhs then 1 else 0
  constant := 0
  isStrictlyGreater := true

def conditionMinus (effect : LinearEffect) : LinearNumericCondition where
  coefficients := fun var => -(conditionPlus effect).coefficients var
  constant := 0
  isStrictlyGreater := true

/-- The union of two sets as ascending lists. -/
def extendedPreconditions (action : ActionConditions) (effectIds : List ℤ) : List ℤ :=
  action.numList.foldl (fun ids id => insertId id ids) effectIds

/-- The landmark heuristic reads the numbers of comparisons as numbers of conditions. -/
def makeRedundantConditions (table : ConditionTable) (lnc : LinearNumericCondition)
    (conditionIds : List ℤ) : Option (List LinearNumericCondition) :=
  conditionIds.mapM fun id => (table.condition? id).map fun other =>
    { lnc.add other with isStrictlyGreater := lnc.isStrictlyGreater || other.isStrictlyGreater }

/-! ## What conditions ask for -/

/-- The conditions of the comparisons that the facts ask to be true. -/
def IsRequired (facts : List Condition) (condition : LinearNumericCondition) : Prop :=
  ∃ fact ∈ facts, fact.val ≤ 0 ∧ ∃ number comparison, task.factToAxiom fact.var = some number ∧
    task.compAxioms[number]? = some comparison ∧ condition ∈ task.conditionsOf comparison

/-- These conditions and sums of them. -/
inductive Required (facts : List Condition) : LinearNumericCondition → Prop where
  | comparison {condition} : task.IsRequired facts condition → Required facts condition
  | sum {first second} : Required facts first → Required facts second →
      Required facts (first.add second)

/-- The id is that of a comparison, and the facts ask for its conditions. -/
def LooksUp (facts : List Condition) (table : ConditionTable) (id : ℤ) : Prop :=
  ∃ number : ℕ, id = number ∧ ∃ conditions, table.Names number conditions ∧
    ∀ condition ∈ conditions, task.Required facts condition

/-- The id is also the number of a condition for which the facts ask. -/
def IsUsable (facts : List Condition) (table : ConditionTable) (id : ℤ) : Prop :=
  ∃ number : ℕ, id = number ∧ number < table.conditions.length ∧
    task.Required facts (table.condition number)

/-- The id stands for a sum of two conditions for which the facts ask; and for the condition with the
same number if there are as many conditions as ids. -/
def IsAdded (facts : List Condition) (table : ConditionTable) (id : ℤ) : Prop :=
  ∃ number : ℕ, id = number ∧ ∃ first second, task.Required facts first ∧ task.Required facts second ∧
    table.Names number [first.add second] ∧
    (table.conditions.length = table.ids.length →
      number < table.conditions.length ∧ table.condition number = first.add second)

variable {task}

/-! ## More facts and longer tables -/

theorem Required.mono {facts others : List Condition} (subset : facts ⊆ others)
    {condition : LinearNumericCondition} (required : task.Required facts condition) :
    task.Required others condition := by
  induction required with
  | comparison isRequired =>
    obtain ⟨fact, isFact, rest⟩ := isRequired
    exact .comparison ⟨fact, subset isFact, rest⟩
  | sum _ _ isFirst isSecond => exact .sum isFirst isSecond

theorem LooksUp.extend {facts others : List Condition} (subset : facts ⊆ others)
    {before after : ConditionTable} (extension : before.Extends after) {id : ℤ}
    (looksUp : task.LooksUp facts before id) : task.LooksUp others after id := by
  obtain ⟨number, isNumber, conditions, names, required⟩ := looksUp
  exact ⟨number, isNumber, conditions, extension.names names,
    fun condition member => (required condition member).mono subset⟩

theorem IsUsable.extend {facts others : List Condition} (subset : facts ⊆ others)
    {before after : ConditionTable} (extension : before.Extends after) {id : ℤ}
    (usable : task.IsUsable facts before id) : task.IsUsable others after id := by
  obtain ⟨number, isNumber, lt, required⟩ := usable
  refine ⟨number, isNumber, lt.trans_le extension.length_le, ?_⟩
  rw [extension.condition lt]
  exact required.mono subset

theorem IsAdded.extend {facts others : List Condition} (subset : facts ⊆ others)
    {before after : ConditionTable} (grows : before.Grows after) {id : ℤ}
    (added : task.IsAdded facts before id) : task.IsAdded others after id := by
  obtain ⟨number, isNumber, first, second, isFirst, isSecond, names, same⟩ := added
  refine ⟨number, isNumber, first, second, isFirst.mono subset, isSecond.mono subset,
    grows.names names, fun balanced => ?_⟩
  have balance := grows.balance
  obtain ⟨lt, isSum⟩ := same (by omega)
  exact ⟨lt.trans_le grows.length_le, by rw [grows.condition lt, isSum]⟩

theorem IsAdded.isUsable {facts : List Condition} {table : ConditionTable} {id : ℤ}
    (added : task.IsAdded facts table id) (balanced : table.conditions.length = table.ids.length) :
    task.IsUsable facts table id := by
  obtain ⟨number, isNumber, first, second, isFirst, isSecond, -, same⟩ := added
  obtain ⟨lt, isSum⟩ := same balanced
  exact ⟨number, isNumber, lt, isSum ▸ .sum isFirst isSecond⟩

/-! ## Sets of ids -/

theorem mem_insertId {id other : ℤ} {ids : List ℤ} :
    other ∈ insertId id ids ↔ other = id ∨ other ∈ ids := by
  unfold insertId
  split
  · rename_i member
    exact ⟨.inr, fun isId => isId.elim (fun same => same ▸ member) fun isOther => isOther⟩
  · exact List.mem_orderedInsert (· ≤ ·)

theorem mem_buildPrecondition {conditions : List Condition} {id : ℤ} :
    id ∈ task.buildPrecondition conditions ↔ ∃ condition ∈ conditions,
      task.factToAxiomMap condition.var ≠ -1 ∧ condition.val ≤ 0 ∧ task.factToAxiomMap condition.var = id := by
  unfold buildPrecondition
  induction conditions using List.reverseRecOn with
  | nil => simp
  | append_singleton conditions condition inductionHypothesis =>
    rw [List.foldl_append, List.foldl_cons, List.foldl_nil]
    simp only [List.mem_append, List.mem_singleton, or_and_right, exists_or, exists_eq_left,
      ← inductionHypothesis, Bool.or_eq_true, decide_eq_true_eq]
    split
    · rename_i ignored
      have none : ¬ (task.factToAxiomMap condition.var ≠ -1 ∧ condition.val ≤ 0 ∧
          task.factToAxiomMap condition.var = id) := by
        rintro ⟨isNumeric, isPositive, -⟩
        omega
      simp [none]
    · rename_i kept
      rw [mem_insertId]
      have both : task.factToAxiomMap condition.var ≠ -1 ∧ condition.val ≤ 0 := by omega
      constructor
      · rintro (isOwn | isOther)
        · exact .inr ⟨both.1, both.2, isOwn.symm⟩
        · exact .inl isOther
      · rintro (isOther | ⟨-, -, isOwn⟩)
        · exact .inr isOther
        · exact .inl isOwn.symm

theorem mem_extendedPreconditions {action : ActionConditions} {effectIds : List ℤ} {id : ℤ} :
    id ∈ extendedPreconditions action effectIds ↔ id ∈ action.numList ∨ id ∈ effectIds := by
  unfold extendedPreconditions
  induction action.numList generalizing effectIds with
  | nil => simp
  | cons first rest inductionHypothesis =>
    rw [List.foldl_cons, inductionHypothesis, mem_insertId, List.mem_cons]
    tauto

/-! ## Sums that are added -/

/-- The outcome of adding sums to a target: the table grows, and new ids stand for sums. -/
def AddsSums (task : OperatorTask) (facts : List Condition) (table : ConditionTable) (ids : List ℤ)
    (result : Option (ConditionTable × Option (List ℤ))) : Prop :=
  ∃ final finalIds, result = some (final, some finalIds) ∧ table.Grows final ∧
    ∀ id ∈ finalIds, id ∈ ids ∨ task.IsAdded facts final id

theorem IsUsable.condition? {facts : List Condition} {table : ConditionTable} {id : ℤ}
    (usable : task.IsUsable facts table id) :
    ∃ condition, table.condition? id = some condition ∧ task.Required facts condition := by
  obtain ⟨number, rfl, lt, required⟩ := usable
  refine ⟨table.condition number, ?_, required⟩
  simp [ConditionTable.condition?, ConditionTable.condition, List.getD_eq_getElem?_getD, lt]

theorem addRedundantConstraint_addsSums {facts : List Condition} {table : ConditionTable} {x y : ℤ}
    (isFirst : task.IsUsable facts table x) (isSecond : task.IsUsable facts table y) (ids : List ℤ) :
    task.AddsSums facts table ids (task.addRedundantConstraint table x y (some ids)) := by
  obtain ⟨first, isX, requiredFirst⟩ := isFirst.condition?
  obtain ⟨second, isY, requiredSecond⟩ := isSecond.condition?
  simp only [addRedundantConstraint, isX, isY, Option.bind_eq_bind, Option.bind_some]
  by_cases empty : task.isEmpty (first.add second) = true
  · rw [if_pos empty]
    exact ⟨table, ids, rfl, .refl table, fun id member => .inl member⟩
  · rw [if_neg empty]
    refine ⟨_, _, rfl, ConditionTable.grows_of_append table _ _, fun id member => ?_⟩
    cases mem_insertId.mp member with
    | inr isOld => exact .inl isOld
    | inl isNew =>
      right
      have value : (ConditionTable.mk (table.conditions ++ [first.add second])
          (table.ids ++ [[table.conditions.length]])).condition table.conditions.length =
            first.add second := by
        simp [ConditionTable.condition, List.getD_eq_getElem?_getD]
      refine ⟨table.ids.length, isNew, first, second, requiredFirst, requiredSecond,
        ⟨[table.conditions.length], by simp, ?_, ?_⟩, fun balanced => ?_⟩
      · intro own isOwn
        rw [List.mem_singleton.mp isOwn]
        simp
      · rw [List.map_singleton, value]
      · have same : table.ids.length = table.conditions.length := by
          simp only [List.length_append, List.length_singleton] at balanced
          omega
        exact ⟨by simp [same], by rw [same, value]⟩

theorem addAll_addsSums {facts : List Condition} {pairs : List (ℤ × ℤ)} {table : ConditionTable}
    (usable : ∀ pair ∈ pairs, task.IsUsable facts table pair.1 ∧ task.IsUsable facts table pair.2)
    (ids : List ℤ) : task.AddsSums facts table ids (task.addAll pairs table (some ids)) := by
  induction pairs generalizing table ids with
  | nil => exact ⟨table, ids, rfl, .refl table, fun id member => .inl member⟩
  | cons pair pairs inductionHypothesis =>
    obtain ⟨isFirst, isSecond⟩ := usable pair List.mem_cons_self
    obtain ⟨middle, middleIds, isMiddle, growsFirst, addedFirst⟩ :=
      addRedundantConstraint_addsSums isFirst isSecond ids
    obtain ⟨final, finalIds, isFinal, growsRest, addedRest⟩ := inductionHypothesis
      (fun other member =>
        ⟨(usable other (List.mem_cons_of_mem pair member)).1.extend (List.Subset.refl _) growsFirst.toExtends,
          (usable other (List.mem_cons_of_mem pair member)).2.extend (List.Subset.refl _)
            growsFirst.toExtends⟩) middleIds
    refine ⟨final, finalIds, ?_, growsFirst.trans growsRest, fun id member => ?_⟩
    · simp [addAll, isMiddle, isFinal]
    · cases addedRest id member with
      | inl isMiddleId =>
        exact (addedFirst id isMiddleId).imp_right fun added =>
          added.extend (List.Subset.refl _) growsRest
      | inr isNew => exact .inr isNew

theorem mem_crossPairs {lists : List (List ℕ)} {pair : ℤ × ℤ} (member : pair ∈ crossPairs lists) :
    (∃ number ∈ lists.flatten, pair.1 = (number : ℤ)) ∧ ∃ number ∈ lists.flatten, pair.2 = (number : ℤ) := by
  induction lists with
  | nil => cases member
  | cons numbers rest inductionHypothesis =>
    cases List.mem_append.mp member with
    | inl isOwn =>
      obtain ⟨x, isX, isPair⟩ := List.mem_flatMap.mp isOwn
      obtain ⟨y, isY, rfl⟩ := List.mem_map.mp isPair
      exact ⟨⟨x, List.mem_append_left _ isX, rfl⟩, ⟨y, List.mem_append_right _ isY, rfl⟩⟩
    | inr isLater =>
      obtain ⟨⟨x, isX, first⟩, ⟨y, isY, second⟩⟩ := inductionHypothesis isLater
      exact ⟨⟨x, List.mem_append_right _ isX, first⟩, ⟨y, List.mem_append_right _ isY, second⟩⟩

/-- The conditions that are looked up are usable. -/
theorem LooksUp.numbers? {facts : List Condition} {table : ConditionTable} {id : ℤ}
    (looksUp : task.LooksUp facts table id) :
    ∃ numbers, table.numbers? id = some numbers ∧
      ∀ number ∈ numbers, task.IsUsable facts table (number : ℤ) := by
  obtain ⟨number, rfl, conditions, ⟨numbers, isNumbers, within, same⟩, required⟩ := looksUp
  refine ⟨numbers, by simp [ConditionTable.numbers?, isNumbers], fun own member => ?_⟩
  refine ⟨own, rfl, within own member, required _ ?_⟩
  rw [← same]
  exact List.mem_map_of_mem member

theorem mapM_numbers? {facts : List Condition} {table : ConditionTable} {originals : List ℤ}
    (looksUp : ∀ id ∈ originals, task.LooksUp facts table id) :
    ∃ lists, originals.mapM table.numbers? = some lists ∧ lists.length = originals.length ∧
      ∀ number ∈ lists.flatten, task.IsUsable facts table (number : ℤ) := by
  induction originals with
  | nil => exact ⟨[], rfl, rfl, fun number member => by cases member⟩
  | cons id originals inductionHypothesis =>
    rw [List.forall_mem_cons] at looksUp
    obtain ⟨numbers, isNumbers, usable⟩ := looksUp.1.numbers?
    obtain ⟨lists, isLists, sameLength, usableRest⟩ := inductionHypothesis looksUp.2
    refine ⟨numbers :: lists, by simp [List.mapM_cons, isNumbers, isLists], by simp [sameLength], ?_⟩
    intro number member
    cases List.mem_append.mp member with
    | inl isOwn => exact usable number isOwn
    | inr isOther => exact usableRest number isOther

theorem buildWithin_addsSums {facts : List Condition} {table : ConditionTable} {originals : List ℤ}
    (looksUp : ∀ id ∈ originals, task.LooksUp facts table id) (ids : List ℤ) :
    task.AddsSums facts table ids (task.buildWithin table originals (some ids)) := by
  obtain ⟨lists, isLists, -, usable⟩ := mapM_numbers? looksUp
  have pairsUsable : ∀ pair ∈ crossPairs lists,
      task.IsUsable facts table pair.1 ∧ task.IsUsable facts table pair.2 := by
    intro pair member
    obtain ⟨⟨x, isX, first⟩, ⟨y, isY, second⟩⟩ := mem_crossPairs member
    rw [first, second]
    exact ⟨usable x isX, usable y isY⟩
  simp only [buildWithin, isLists, Option.bind_eq_bind, Option.bind_some]
  exact addAll_addsSums pairsUsable ids

theorem buildBetween_addsSums {facts : List Condition} {table : ConditionTable} {list1 list2 : List ℤ}
    (usable : ∀ x ∈ list1, ∀ y ∈ list2, y ≠ x →
      task.IsUsable facts table x ∧ task.IsUsable facts table y) (ids : List ℤ) :
    task.AddsSums facts table ids (task.buildBetween table list1 list2 (some ids)) := by
  apply addAll_addsSums
  intro pair member
  obtain ⟨x, isX, isPair⟩ := List.mem_flatMap.mp member
  obtain ⟨y, isY, rfl⟩ := List.mem_map.mp isPair
  obtain ⟨inList, different⟩ := List.mem_filter.mp isY
  exact usable x isX y inList (by simpa using different)

theorem buildRedundantConstraints_addsSums {facts : List Condition} {table : ConditionTable}
    {originals numList : List ℤ} (looksUp : ∀ id ∈ originals, task.LooksUp facts table id)
    (usable : ∀ x ∈ originals, ∀ y ∈ numList, y ≠ x →
      task.IsUsable facts table x ∧ task.IsUsable facts table y) (ids : List ℤ) :
    task.AddsSums facts table ids
      (task.buildRedundantConstraints table originals numList (some ids)) := by
  unfold buildRedundantConstraints
  split
  · obtain ⟨middle, middleIds, isMiddle, growsFirst, addedFirst⟩ := buildWithin_addsSums looksUp ids
    obtain ⟨final, finalIds, isFinal, growsRest, addedRest⟩ := buildBetween_addsSums
      (fun x isX y isY different =>
        ⟨(usable x isX y isY different).1.extend (List.Subset.refl _) growsFirst.toExtends,
          (usable x isX y isY different).2.extend (List.Subset.refl _) growsFirst.toExtends⟩) middleIds
    refine ⟨final, finalIds, by simp [isMiddle, isFinal], growsFirst.trans growsRest, fun id member => ?_⟩
    cases addedRest id member with
    | inl isMiddleId =>
      exact (addedFirst id isMiddleId).imp_right fun added =>
        added.extend (List.Subset.refl _) growsRest
    | inr isNew => exact .inr isNew
  · exact ⟨table, ids, rfl, .refl table, fun id member => .inl member⟩

/-- One comparison at most, and no other one to combine it with: nothing is added, wherever to. -/
theorem buildRedundantConstraints_of_single {facts : List Condition} {table : ConditionTable}
    {originals numList : List ℤ} (looksUp : ∀ id ∈ originals, task.LooksUp facts table id)
    (single : originals.length ≤ 1) (same : ∀ x ∈ originals, ∀ y ∈ numList, y = x)
    (target : Option (List ℤ)) :
    task.buildRedundantConstraints table originals numList target = some (table, target) := by
  unfold buildRedundantConstraints
  split
  · obtain ⟨lists, isLists, sameLength, -⟩ := mapM_numbers? looksUp
    have noPairs : crossPairs lists = [] := by
      match lists with
      | [] => rfl
      | [numbers] => simp [crossPairs]
      | _ :: _ :: _ =>
        simp only [List.length_cons] at sameLength
        omega
    have noOthers : (originals.flatMap fun x => (numList.filter (· ≠ x)).map (Prod.mk x)) = [] := by
      rw [List.flatMap_eq_nil_iff]
      intro x isX
      rw [List.map_eq_nil_iff, List.filter_eq_nil_iff]
      intro y isY
      simpa using same x isX y isY
    simp only [buildWithin, isLists, noPairs, addAll, buildBetween, noOthers, Option.bind_eq_bind,
      Option.bind_some]
  · rfl

end OperatorTask

end CutPlan.Search
