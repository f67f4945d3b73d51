import CutPlan.Search.LogicAxioms
import Mathlib.Data.List.Nodup
import Mathlib.Data.List.Perm.Basic
import Mathlib.Data.List.Perm.Subperm

/-! # The values that the axioms derive

The rules are a logic program whose atoms are facts, where the default value of a derived variable is
the negation of the other one.  Propagation computes its stratified model.
-/

namespace CutPlan.Search

open CutPlan.Lib CutPlan.Sas

namespace LogicTask

variable (task : LogicTask)

def IsDerived (var : ℕ) : Prop :=
  task.axiomLayer var ≠ -1 ∧ task.axiomLayer var ≠ task.comparisonAxiomLayer

instance (var : ℕ) : Decidable (task.IsDerived var) := inferInstanceAs (Decidable (_ ∧ _))

/-- A stratified set of rules over derived variables with two values each. -/
structure WellFormed (nonDefault : ℕ → ℤ) : Prop where
  /-- The assertions on layers. -/
  layers : ∀ var, task.axiomLayer var = -1 ∨
    0 ≤ task.axiomLayer var ∧ task.lastArithmeticAxiomLayer < task.axiomLayer var
  derives : ∀ rule ∈ task.logicAxioms, task.IsDerived rule.affectedVariable ∧
    rule.effectVal = nonDefault rule.affectedVariable
  nonDefault_ne : ∀ var, task.IsDerived var → nonDefault var ≠ task.defaultValue var
  inBounds : ∀ rule ∈ task.logicAxioms, ∀ condition ∈ rule.conditions,
    condition.var < task.axiomLayers.length
  binary : ∀ rule ∈ task.logicAxioms, ∀ condition ∈ rule.conditions,
    task.IsDerived condition.var →
      condition.val = task.defaultValue condition.var ∨ condition.val = nonDefault condition.var
  /-- Variables of lower layers or of the rule's own layer, the latter only if they are derived. -/
  stratified : ∀ rule ∈ task.logicAxioms, ∀ condition ∈ rule.conditions,
    task.IsDerived condition.var →
      task.axiomLayer condition.var < task.axiomLayer rule.affectedVariable ∨
        task.axiomLayer condition.var = task.axiomLayer rule.affectedVariable ∧
          condition.val = nonDefault condition.var
  /-- Without rules no variable is derived. -/
  noRules : task.logicAxioms = [] → ∀ var, ¬ task.IsDerived var

/-! ## The logic program -/

variable (nonDefault : ℕ → ℤ)

/-- The default value of a derived variable negates the other one. -/
def literalOf (condition : Condition) : Literal Condition :=
  if task.IsDerived condition.var ∧ condition.val = task.defaultValue condition.var then
    { atom := ⟨condition.var, nonDefault condition.var⟩, negated := true }
  else { atom := condition, negated := false }

def clauseOf (rule : PropositionalAxiom) : Clause Condition where
  head := rule.effect
  body := rule.conditions.map (task.literalOf nonDefault)

def program : List (Clause Condition) := task.logicAxioms.map (task.clauseOf nonDefault)

/-- What holds before any rule is applied: the values of the variables that are not derived. -/
def base (buffer : ℕ → ℤ) (atom : Condition) : Bool :=
  ¬ task.IsDerived atom.var ∧ buffer atom.var = atom.val

variable {task nonDefault}

theorem lt_length_of_layer {var : ℕ} (layered : task.axiomLayer var ≠ -1) :
    var < task.axiomLayers.length := by
  by_contra outside
  apply layered
  rw [axiomLayer, List.getD_eq_getElem?_getD, List.getElem?_eq_none (not_lt.mp outside)]
  rfl

theorem IsDerived.lt_length {var : ℕ} (derived : task.IsDerived var) :
    var < task.axiomLayers.length := lt_length_of_layer derived.1

theorem le_foldl_max (layers : List ℤ) : ∀ start : ℤ, start ≤ layers.foldl max start ∧
    ∀ layer ∈ layers, layer ≤ layers.foldl max start := by
  induction layers with
  | nil => simp
  | cons head layers inductionHypothesis =>
    intro start
    obtain ⟨startLe, others⟩ := inductionHypothesis (max start head)
    refine ⟨(le_max_left _ _).trans startLe, fun layer member => ?_⟩
    cases List.mem_cons.mp member with
    | inl isHead =>
      rw [isHead]
      exact (le_max_right _ _).trans startLe
    | inr later => exact others layer later

theorem axiomLayer_le_lastLayer (var : ℕ) : task.axiomLayer var ≤ task.lastLayer := by
  obtain ⟨atLeast, others⟩ := le_foldl_max task.axiomLayers (-1)
  rw [axiomLayer, List.getD_eq_getElem?_getD]
  cases found : task.axiomLayers[var]? with
  | none => exact atLeast
  | some layer => exact others layer (List.mem_of_getElem? found)

namespace WellFormed

variable (wellFormed : task.WellFormed nonDefault)

include wellFormed

theorem layer_nonneg {var : ℕ} (derived : task.IsDerived var) : 0 ≤ task.axiomLayer var :=
  ((wellFormed.layers var).resolve_left derived.1).1

omit wellFormed in
theorem isHead_iff {atom : Condition} :
    LogicProgram.IsHead (task.program nonDefault) atom ↔
      ∃ rule ∈ task.logicAxioms, rule.effect = atom := by
  simp [LogicProgram.IsHead, program, clauseOf]

theorem isHead_derived {atom : Condition}
    (isHead : LogicProgram.IsHead (task.program nonDefault) atom) :
    task.IsDerived atom.var ∧ atom.val = nonDefault atom.var := by
  obtain ⟨rule, isRule, rfl⟩ := isHead_iff.mp isHead
  exact wellFormed.derives rule isRule

theorem stratifies : LogicProgram.Stratifies (task.program nonDefault)
    fun atom => (task.axiomLayer atom.var).toNat := by
  constructor
  all_goals
    intro clause isClause literal isLiteral sign isHead
    obtain ⟨rule, isRule, rfl⟩ := List.mem_map.mp isClause
    obtain ⟨condition, isCondition, rfl⟩ := List.mem_map.mp isLiteral
    have headLayer := wellFormed.layer_nonneg (wellFormed.derives rule isRule).1
    have layers := wellFormed.stratified rule isRule condition isCondition
    unfold literalOf at sign isHead ⊢
    split at sign
  · simp at sign
  · rename_i positive
    rw [if_neg positive] at isHead ⊢
    have derived := (wellFormed.isHead_derived isHead).1
    have below := layers derived
    simp only [clauseOf, PropositionalAxiom.effect]
    omega
  · rename_i negative
    rw [if_pos negative]
    have differs := wellFormed.nonDefault_ne condition.var negative.1
    have below := (layers negative.1).resolve_right fun same => differs (same.2 ▸ negative.2)
    have lower := wellFormed.layer_nonneg negative.1
    simp only [clauseOf, PropositionalAxiom.effect]
    omega
  · simp at sign

end WellFormed

/-! ## What is known of the literals pushed so far -/

variable (task nonDefault) in
/-- The literals that can be pushed at all. -/
def reachable (buffer : ℕ → ℤ) : List Condition :=
  (List.range task.axiomLayers.length).flatMap fun var =>
    [⟨var, buffer var⟩, ⟨var, task.defaultValue var⟩, ⟨var, nonDefault var⟩]

variable (task nonDefault) in
/-- Literals are pushed once and hold in the model; those of derived variables are their values, and
negation by failure has been applied to the layers before `phase`. -/
structure Justified (buffer : ℕ → ℤ) (model : Condition → Bool) (phase : ℤ)
    (pushed : List Condition) (values : ℕ → ℤ) : Prop where
  nodup : pushed.Nodup
  holds : ∀ literal ∈ pushed, (task.literalOf nonDefault literal).holds model = true
  within : ∀ literal ∈ pushed, literal ∈ task.reachable nonDefault buffer
  phased : ∀ literal ∈ pushed, task.IsDerived literal.var →
    literal.val = task.defaultValue literal.var → task.axiomLayer literal.var < phase
  derived : ∀ var, task.IsDerived var → values var =
    if ⟨var, nonDefault var⟩ ∈ pushed then nonDefault var else task.defaultValue var
  kept : ∀ var, ¬ task.IsDerived var → values var = buffer var
  given : ∀ var < task.axiomLayers.length, ¬ task.IsDerived var → ⟨var, buffer var⟩ ∈ pushed
  failed : ∀ var, task.IsDerived var → task.axiomLayer var < phase →
    model ⟨var, nonDefault var⟩ = false → ⟨var, task.defaultValue var⟩ ∈ pushed

variable (task) in
/-- The counters count the conditions that are not processed, apart from the decrements that are
pending; a rule without open conditions has written its effect. -/
structure Counted (processed : List Condition) (pending : List ℕ) (state : AxiomState) : Prop where
  counters : ∀ (index : ℕ) (rule : PropositionalAxiom), task.logicAxioms[index]? = some rule →
    state.unsatisfiedConditions index =
      rule.conditions.countP (· ∉ processed) + pending.count index
  fired : ∀ (index : ℕ) (rule : PropositionalAxiom), task.logicAxioms[index]? = some rule →
    index ∉ pending → (∀ condition ∈ rule.conditions, condition ∈ processed) →
      rule.effect ∈ processed ++ state.queue

variable {buffer : ℕ → ℤ} {model : Condition → Bool} {phase : ℤ}

theorem Justified.perm {pushed other : List Condition} {values : ℕ → ℤ}
    (justified : task.Justified nonDefault buffer model phase pushed values)
    (perm : pushed.Perm other) : task.Justified nonDefault buffer model phase other values where
  nodup := perm.nodup justified.nodup
  holds := fun literal member => justified.holds literal (perm.mem_iff.mpr member)
  within := fun literal member => justified.within literal (perm.mem_iff.mpr member)
  phased := fun literal member => justified.phased literal (perm.mem_iff.mpr member)
  derived := by
    intro var derived
    simpa only [perm.mem_iff] using justified.derived var derived
  kept := justified.kept
  given := fun var bound notDerived => perm.mem_iff.mp (justified.given var bound notDerived)
  failed := fun var derived below isFalse =>
    perm.mem_iff.mp (justified.failed var derived below isFalse)

theorem Justified.length_le {pushed : List Condition} {values : ℕ → ℤ}
    (justified : task.Justified nonDefault buffer model phase pushed values) :
    pushed.length ≤ 3 * task.axiomLayers.length := by
  have inside := (List.subperm_of_subset justified.nodup justified.within).length_le
  simpa [reachable, List.length_flatMap, mul_comm] using inside

theorem literalOf_effect (wellFormed : task.WellFormed nonDefault) {rule : PropositionalAxiom}
    (isRule : rule ∈ task.logicAxioms) :
    task.literalOf nonDefault rule.effect = { atom := rule.effect, negated := false } := by
  obtain ⟨derived, isNonDefault⟩ := wellFormed.derives rule isRule
  refine if_neg fun both => wellFormed.nonDefault_ne _ derived ?_
  exact isNonDefault.symm.trans both.2

/-- A rule whose conditions hold in the model writes something that holds there. -/
theorem Justified.write (wellFormed : task.WellFormed nonDefault)
    (isModel : LogicProgram.IsModel (task.program nonDefault) (task.base buffer) model)
    {pushed : List Condition} {values : ℕ → ℤ}
    (justified : task.Justified nonDefault buffer model phase pushed values)
    {rule : PropositionalAxiom} (isRule : rule ∈ task.logicAxioms)
    (satisfied : ∀ condition ∈ rule.conditions, condition ∈ pushed)
    (fresh : rule.effect ∉ pushed) :
    task.Justified nonDefault buffer model phase (pushed ++ [rule.effect])
      (Function.update values rule.affectedVariable rule.effectVal) := by
  obtain ⟨derived, isNonDefault⟩ := wellFormed.derives rule isRule
  have effectIs : rule.effect = ⟨rule.affectedVariable, nonDefault rule.affectedVariable⟩ := by
    rw [PropositionalAxiom.effect, isNonDefault]
  have effectTrue : model rule.effect = true := by
    apply isModel.of_body (List.mem_map_of_mem isRule)
    rw [bodyHolds_iff]
    intro literal isLiteral
    obtain ⟨condition, isCondition, rfl⟩ := List.mem_map.mp isLiteral
    exact justified.holds condition (satisfied condition isCondition)
  have grown : ∀ literal, literal ∈ pushed ++ [rule.effect] ↔
      literal ∈ pushed ∨ literal = rule.effect := by simp
  constructor
  · rw [List.nodup_append]
    refine ⟨justified.nodup, List.nodup_singleton _, fun old member new isNew same => ?_⟩
    rw [List.mem_singleton] at isNew
    exact fresh (isNew ▸ same ▸ member)
  · intro literal member
    cases (grown literal).mp member with
    | inl old => exact justified.holds literal old
    | inr new =>
      rw [new, literalOf_effect wellFormed isRule, Literal.holds_iff]
      exact effectTrue
  · intro literal member
    cases (grown literal).mp member with
    | inl old => exact justified.within literal old
    | inr new =>
      rw [new, effectIs, reachable, List.mem_flatMap]
      exact ⟨_, List.mem_range.mpr derived.lt_length, by simp⟩
  · intro literal member literalDerived isDefault
    cases (grown literal).mp member with
    | inl old => exact justified.phased literal old literalDerived isDefault
    | inr new =>
      subst new
      exact absurd (isNonDefault.symm.trans isDefault) (wellFormed.nonDefault_ne _ derived)
  · intro var varDerived
    by_cases same : var = rule.affectedVariable
    · subst same
      rw [Function.update_self, ← effectIs, if_pos ((grown _).mpr (.inr rfl)), isNonDefault]
    · have other : (⟨var, nonDefault var⟩ : Condition) ≠ rule.effect := by
        rw [effectIs]
        exact fun equal => same (congrArg Condition.var equal)
      rw [Function.update_of_ne same, justified.derived var varDerived]
      simp only [grown, other, or_false]
  · intro var notDerived
    have other : var ≠ rule.affectedVariable := fun same => notDerived (same ▸ derived)
    rw [Function.update_of_ne other]
    exact justified.kept var notDerived
  · exact fun var bound notDerived => (grown _).mpr (.inl (justified.given var bound notDerived))
  · exact fun var varDerived below isFalse =>
      (grown _).mpr (.inl (justified.failed var varDerived below isFalse))

theorem Justified.trigger (wellFormed : task.WellFormed nonDefault)
    (isModel : LogicProgram.IsModel (task.program nonDefault) (task.base buffer) model)
    {processed : List Condition} {state : AxiomState}
    (justified : task.Justified nonDefault buffer model phase (processed ++ state.queue) state.buffer)
    {rule : PropositionalAxiom} (isRule : rule ∈ task.logicAxioms)
    (satisfied : ∀ condition ∈ rule.conditions, condition ∈ processed ++ state.queue) :
    task.Justified nonDefault buffer model phase (processed ++ (state.trigger rule).queue)
        (state.trigger rule).buffer ∧
      rule.effect ∈ processed ++ (state.trigger rule).queue ∧
      ∀ literal ∈ processed ++ state.queue, literal ∈ processed ++ (state.trigger rule).queue := by
  obtain ⟨derived, isNonDefault⟩ := wellFormed.derives rule isRule
  have value := justified.derived rule.affectedVariable derived
  rw [← isNonDefault, ← PropositionalAxiom.effect] at value
  unfold AxiomState.trigger
  by_cases written : state.buffer rule.affectedVariable = rule.effectVal
  · -- the effect was written before
    rw [if_neg (not_not.mpr written)]
    refine ⟨justified, ?_, fun literal member => member⟩
    by_contra unpushed
    rw [if_neg unpushed, written, isNonDefault] at value
    exact wellFormed.nonDefault_ne _ derived value
  · have fresh : rule.effect ∉ processed ++ state.queue :=
      fun member => written (value.trans (if_pos member))
    rw [if_pos written]
    simp only [← List.append_assoc]
    exact ⟨justified.write wellFormed isModel isRule satisfied fresh,
      List.mem_append_right _ (List.mem_singleton_self _),
      fun literal member => List.mem_append_left _ member⟩

/-! ## One decrement -/

/-- A decrement keeps the counters exact, and the rule fires with the last one. -/
theorem Counted.satisfy (wellFormed : task.WellFormed nonDefault)
    (isModel : LogicProgram.IsModel (task.program nonDefault) (task.base buffer) model)
    {processed : List Condition} {index : ℕ} {pending : List ℕ} {state : AxiomState}
    (justified : task.Justified nonDefault buffer model phase (processed ++ state.queue) state.buffer)
    (counted : task.Counted processed (index :: pending) state) :
    task.Justified nonDefault buffer model phase (processed ++ (task.satisfy state index).queue)
        (task.satisfy state index).buffer ∧
      task.Counted processed pending (task.satisfy state index) := by
  unfold LogicTask.satisfy
  cases found : task.logicAxioms[index]? with
  | none =>
    refine ⟨justified, fun other rule isRule => ?_, fun other rule isRule idle => ?_⟩
    · have different : other ≠ index := fun same => by simp [same, found] at isRule
      have before := counted.counters other rule isRule
      simpa [different, different.symm] using before
    · have different : other ≠ index := fun same => by simp [same, found] at isRule
      exact counted.fired other rule isRule (by simp [different, idle])
  | some rule =>
    have isRule := List.mem_of_getElem? found
    have before := counted.counters index rule found
    have after : state.unsatisfiedConditions index - 1 =
        rule.conditions.countP (· ∉ processed) + pending.count index := by
      rw [before, List.count_cons_self]
      omega
    have counters : ∀ (other : ℕ) (otherRule : PropositionalAxiom),
        task.logicAxioms[other]? = some otherRule →
          Function.update state.unsatisfiedConditions index
              (state.unsatisfiedConditions index - 1) other =
            otherRule.conditions.countP (· ∉ processed) + pending.count other := by
      intro other otherRule isOther
      by_cases same : other = index
      · subst same
        rw [found] at isOther
        cases isOther
        rw [Function.update_self, after]
      · have unchanged := counted.counters other otherRule isOther
        rw [Function.update_of_ne same, unchanged, List.count_cons_of_ne (Ne.symm same)]
    simp only [Function.update_self]
    by_cases last : state.unsatisfiedConditions index - 1 = 0
    · -- all conditions are processed and no decrement of this rule is pending
      rw [if_pos last]
      have noneOpen : rule.conditions.countP (· ∉ processed) = 0 := by omega
      have allProcessed : ∀ condition ∈ rule.conditions, condition ∈ processed := by
        intro condition isCondition
        have notOpen := List.countP_eq_zero.mp noneOpen condition isCondition
        simpa using notOpen
      let decremented : AxiomState :=
        { state with
          unsatisfiedConditions := Function.update state.unsatisfiedConditions index
            (state.unsatisfiedConditions index - 1) }
      have same : task.Justified nonDefault buffer model phase (processed ++ decremented.queue)
          decremented.buffer := justified
      obtain ⟨stays, written, grows⟩ := same.trigger wellFormed isModel isRule
        fun condition isCondition => List.mem_append_left _ (allProcessed condition isCondition)
      refine ⟨stays, ⟨?_, ?_⟩⟩
      · intro other otherRule isOther
        have sameCounters : ∀ anyState : AxiomState,
            (anyState.trigger rule).unsatisfiedConditions = anyState.unsatisfiedConditions := by
          intro anyState
          unfold AxiomState.trigger
          split <;> rfl
        rw [sameCounters]
        exact counters other otherRule isOther
      · intro other otherRule isOther idle processedAll
        by_cases same : other = index
        · subst same
          rw [found] at isOther
          cases isOther
          exact written
        · exact grows _ (counted.fired other otherRule isOther (by simp [same, idle]) processedAll)
    · rw [if_neg last]
      refine ⟨justified, ⟨counters, fun other otherRule isOther idle processedAll => ?_⟩⟩
      by_cases same : other = index
      · -- a rule with an open counter has an open condition
        subst same
        rw [found] at isOther
        cases isOther
        have closed : rule.conditions.countP (· ∉ processed) = 0 := by
          rw [List.countP_eq_zero]
          intro condition isCondition
          simpa using processedAll condition isCondition
        rw [after, closed, List.count_eq_zero.mpr idle] at last
        exact absurd rfl last
      · exact counted.fired other otherRule isOther (by simp [same, idle]) processedAll

theorem Counted.foldl_satisfy (wellFormed : task.WellFormed nonDefault)
    (isModel : LogicProgram.IsModel (task.program nonDefault) (task.base buffer) model)
    {processed : List Condition} (pending : List ℕ) : ∀ state : AxiomState,
    task.Justified nonDefault buffer model phase (processed ++ state.queue) state.buffer →
    task.Counted processed pending state →
    task.Justified nonDefault buffer model phase
        (processed ++ (pending.foldl task.satisfy state).queue)
        (pending.foldl task.satisfy state).buffer ∧
      task.Counted processed [] (pending.foldl task.satisfy state) := by
  induction pending with
  | nil => exact fun _ justified counted => ⟨justified, counted⟩
  | cons index pending inductionHypothesis =>
    intro state justified counted
    obtain ⟨stays, fewer⟩ := counted.satisfy wellFormed isModel justified
    exact inductionHypothesis _ stays fewer

/-! ## One literal -/

theorem count_zipIdx (literal : Condition) (index : ℕ) (rules : List PropositionalAxiom) :
    ∀ offset, ((rules.zipIdx offset).flatMap fun item =>
      (item.1.conditions.filter (· = literal)).map fun _ => item.2).count index =
        if offset ≤ index then
          (rules[index - offset]?.map fun rule => rule.conditions.count literal).getD 0
        else 0 := by
  induction rules with
  | nil => simp
  | cons head rules inductionHypothesis =>
    intro offset
    have own : ((head.conditions.filter (· = literal)).map fun _ => offset).count index =
        if offset = index then head.conditions.count literal else 0 := by
      have counted : (head.conditions.filter (· = literal)).length = head.conditions.count literal :=
        (List.countP_eq_length_filter).symm
      rw [List.map_const', List.count_replicate, counted]
      by_cases same : offset = index <;> simp [same]
    rw [List.zipIdx_cons, List.flatMap_cons, List.count_append, own, inductionHypothesis]
    obtain before | same | after := Nat.lt_trichotomy index offset
    · simp [before.ne', not_le.mpr before, not_le.mpr (before.trans (Nat.lt_succ_self _))]
    · subst same
      simp
    · obtain ⟨gap, rfl⟩ := Nat.exists_eq_add_of_lt after
      have shift : offset + gap + 1 - offset = gap + 1 := by omega
      have shiftTail : offset + gap + 1 - (offset + 1) = gap := by omega
      rw [if_neg (by omega), if_pos (by omega), if_pos (by omega), shift, shiftTail]
      simp

theorem count_conditionOf (literal : Condition) {index : ℕ} {rule : PropositionalAxiom}
    (found : task.logicAxioms[index]? = some rule) :
    (task.conditionOf literal).count index = rule.conditions.count literal := by
  rw [conditionOf, count_zipIdx literal index task.logicAxioms 0]
  simp [found]

/-- A literal that is taken from the queue counts as processed while its decrements are pending. -/
theorem Counted.take {processed : List Condition} {state : AxiomState} {literal : Condition}
    {position : ℕ} (counted : task.Counted processed [] state)
    (taken : state.queue[position]? = some literal)
    (distinct : (processed ++ state.queue).Nodup) :
    task.Counted (processed ++ [literal]) (task.conditionOf literal)
      { state with queue := state.queue.eraseIdx position } := by
  have fresh : literal ∉ processed := fun member =>
    (List.nodup_append.mp distinct).2.2 literal member literal (List.mem_of_getElem? taken) rfl
  obtain ⟨bound, isLiteral⟩ := List.getElem?_eq_some_iff.mp taken
  have perm : ((processed ++ [literal]) ++ state.queue.eraseIdx position).Perm
      (processed ++ state.queue) := by
    rw [List.append_assoc, ← isLiteral]
    exact (List.getElem_cons_eraseIdx_perm bound).append_left processed
  constructor
  · intro index rule isRule
    rw [counted.counters index rule isRule, count_conditionOf literal isRule, List.count_nil]
    have split : ∀ conditions : List Condition, conditions.countP (· ∉ processed) =
        conditions.countP (· ∉ processed ++ [literal]) + conditions.count literal := by
      intro conditions
      induction conditions with
      | nil => rfl
      | cons condition conditions inductionHypothesis =>
        rw [List.countP_cons, List.countP_cons, List.count_cons, inductionHypothesis]
        by_cases isTaken : condition = literal
        · simp [isTaken, fresh]
          omega
        · by_cases known : condition ∈ processed
          · simp [isTaken, known]
          · simp [isTaken, known]
            omega
    rw [split rule.conditions]
    push_cast
    omega
  · intro index rule isRule idle processedAll
    rw [perm.mem_iff]
    apply counted.fired index rule isRule List.not_mem_nil
    intro condition isCondition
    cases List.mem_append.mp (processedAll condition isCondition) with
    | inl before => exact before
    | inr isTaken =>
      -- a rule with the literal has pending decrements
      rw [List.mem_singleton] at isTaken
      subst isTaken
      rw [← List.count_eq_zero, count_conditionOf condition isRule] at idle
      exact absurd isCondition (List.count_eq_zero.mp idle)

/-! ## The queue -/

/-- In any order the queue drains, within a bound on the fuel that does not depend on the order. -/
theorem applyHornRules_drains (wellFormed : task.WellFormed nonDefault)
    (isModel : LogicProgram.IsModel (task.program nonDefault) (task.base buffer) model)
    (pick : AxiomState → ℕ) : ∀ (left : ℕ) (processed : List Condition) (state : AxiomState),
    3 * task.axiomLayers.length = processed.length + left →
    task.Justified nonDefault buffer model phase (processed ++ state.queue) state.buffer →
    task.Counted processed [] state →
    ∃ result allProcessed,
      (∀ fuel, left ≤ fuel → task.applyHornRules pick fuel state = some result) ∧
      result.queue = [] ∧
      task.Justified nonDefault buffer model phase allProcessed result.buffer ∧
      task.Counted allProcessed [] result := by
  intro left
  induction left with
  | zero =>
    intro processed state budget justified counted
    have inside := justified.length_le
    have empty : state.queue = [] := by
      rw [List.length_append] at inside
      exact List.length_eq_zero_iff.mp (by omega)
    refine ⟨state, processed, fun fuel _ => ?_, empty, ?_, counted⟩
    · rw [applyHornRules]
      simp [empty]
    · simpa [empty] using justified
  | succ left inductionHypothesis =>
    intro processed state budget justified counted
    cases taken : state.queue[pick state % state.queue.length]? with
    | none =>
      have empty : state.queue = [] := by
        by_contra nonempty
        have bound := Nat.mod_lt (pick state) (List.length_pos_iff.mpr nonempty)
        rw [List.getElem?_eq_getElem bound] at taken
        cases taken
      refine ⟨state, processed, fun fuel _ => ?_, empty, ?_, counted⟩
      · rw [applyHornRules]
        simp [empty]
      · simpa [empty] using justified
    | some literal =>
      obtain ⟨bound, isLiteral⟩ := List.getElem?_eq_some_iff.mp taken
      have perm : (processed ++ state.queue).Perm ((processed ++ [literal]) ++
          state.queue.eraseIdx (pick state % state.queue.length)) := by
        rw [List.append_assoc, ← isLiteral]
        exact ((List.getElem_cons_eraseIdx_perm bound).append_left processed).symm
      obtain ⟨stays, counts⟩ := Counted.foldl_satisfy wellFormed isModel (task.conditionOf literal)
        { state with queue := state.queue.eraseIdx (pick state % state.queue.length) }
        (justified.perm perm) (counted.take taken justified.nodup)
      obtain ⟨result, allProcessed, drains, rest⟩ := inductionHypothesis (processed ++ [literal]) _
        (by rw [List.length_append, List.length_singleton]; omega) stays counts
      refine ⟨result, allProcessed, fun fuel enough => ?_, rest⟩
      cases fuel with
      | zero => omega
      | succ fuel =>
        rw [applyHornRules, taken]
        exact drains fuel (by omega)

/-- Once the queue is empty, everything true in the layers so far has been derived. -/
theorem Counted.complete (wellFormed : task.WellFormed nonDefault)
    (isModel : LogicProgram.IsModel (task.program nonDefault) (task.base buffer) model)
    {processed : List Condition} {state : AxiomState}
    (justified : task.Justified nonDefault buffer model phase processed state.buffer)
    (counted : task.Counted processed [] state) (drained : state.queue = []) {atom : Condition}
    (derives : LogicProgram.Derives (task.program nonDefault) model atom) :
    atom.var < task.axiomLayers.length →
      (task.IsDerived atom.var → task.axiomLayer atom.var ≤ phase) → atom ∈ processed := by
  induction derives with
  | @given atom notHead isTrue =>
    intro bound _
    rw [isModel.given atom notHead, base, decide_eq_true_eq] at isTrue
    obtain ⟨notDerived, value⟩ := isTrue
    have pushed := justified.given atom.var bound notDerived
    rwa [value] at pushed
  | @clause clause isClause negatives positives inductionHypothesis =>
    intro bound below
    obtain ⟨rule, isRule, rfl⟩ := List.mem_map.mp isClause
    obtain ⟨index, found⟩ := List.mem_iff_getElem?.mp isRule
    have headDerived := (wellFormed.derives rule isRule).1
    have headBelow := below headDerived
    simp only [clauseOf, PropositionalAxiom.effect] at headBelow
    have written := counted.fired index rule found List.not_mem_nil ?_
    · rwa [drained, List.append_nil] at written
    intro condition isCondition
    have isLiteral : task.literalOf nonDefault condition ∈ (task.clauseOf nonDefault rule).body :=
      List.mem_map_of_mem isCondition
    have layers := wellFormed.stratified rule isRule condition isCondition
    by_cases negative : task.IsDerived condition.var ∧
        condition.val = task.defaultValue condition.var
    · -- the variable has kept its default value in a lower layer
      have isFalse := negatives _ isLiteral (by rw [literalOf, if_pos negative])
      rw [literalOf, if_pos negative] at isFalse
      have differs := wellFormed.nonDefault_ne condition.var negative.1
      have lower := (layers negative.1).resolve_right fun same => differs (same.2 ▸ negative.2)
      have failed := justified.failed condition.var negative.1 (by omega) isFalse
      rwa [← negative.2] at failed
    · have positive : task.literalOf nonDefault condition =
          { atom := condition, negated := false } := if_neg negative
      have processedNow := inductionHypothesis _ isLiteral (by rw [positive])
      rw [positive] at processedNow
      refine processedNow (wellFormed.inBounds rule isRule condition isCondition) fun derived => ?_
      have notAbove := layers derived
      change task.axiomLayer condition.var ≤ phase
      omega

/-! ## Negation by failure -/

theorem foldl_applyNbf (vars : List ℕ) : ∀ state : AxiomState,
    vars.foldl task.applyNbf state =
      { state with
        queue := state.queue ++
          (vars.filter fun var => state.buffer var = task.defaultValue var).map
            fun var => ⟨var, task.defaultValue var⟩ } := by
  induction vars with
  | nil => simp
  | cons var vars inductionHypothesis =>
    intro state
    rw [List.foldl_cons, inductionHypothesis, applyNbf]
    by_cases isDefault : state.buffer var = task.defaultValue var <;> simp [isDefault]

theorem mem_nbfInfo {layerNo : ℤ} {var : ℕ} : var ∈ task.nbfInfo layerNo ↔
    task.axiomLayer var ≠ -1 ∧ task.axiomLayer var ≠ task.lastLayer ∧
      task.axiomLayer var = layerNo := by
  simp only [nbfInfo, List.mem_filter, List.mem_range, decide_eq_true_eq]
  exact ⟨And.right, fun layered => ⟨lt_length_of_layer layered.1, layered⟩⟩

variable (task) in
/-- No comparison variable has its default value. -/
def ComparisonsSettled (buffer : ℕ → ℤ) : Prop :=
  ∀ var, task.axiomLayer var ≠ -1 → task.axiomLayer var = task.comparisonAxiomLayer →
    buffer var ≠ task.defaultValue var

/-- The variables of a layer that kept their default value are false in the model. -/
theorem Justified.negate (wellFormed : task.WellFormed nonDefault)
    (isModel : LogicProgram.IsModel (task.program nonDefault) (task.base buffer) model)
    (settled : task.ComparisonsSettled buffer) {processed : List Condition} {state : AxiomState}
    (justified : task.Justified nonDefault buffer model phase processed state.buffer)
    (counted : task.Counted processed [] state) (drained : state.queue = [])
    (notLast : phase ≠ task.lastLayer) :
    task.Justified nonDefault buffer model (phase + 1)
      (processed ++ ((task.nbfInfo phase).filter fun var =>
        state.buffer var = task.defaultValue var).map fun var => ⟨var, task.defaultValue var⟩)
      state.buffer := by
  -- what is negated is a derived variable of the layer that is false
  have negated : ∀ var ∈ (task.nbfInfo phase).filter (fun var =>
      state.buffer var = task.defaultValue var), task.IsDerived var ∧ task.axiomLayer var = phase ∧
        model ⟨var, nonDefault var⟩ = false := by
    intro var member
    rw [List.mem_filter, mem_nbfInfo, decide_eq_true_eq] at member
    obtain ⟨⟨layered, -, inLayer⟩, isDefault⟩ := member
    have derived : task.IsDerived var := by
      by_contra notDerived
      have comparison : task.axiomLayer var = task.comparisonAxiomLayer := by
        by_contra other
        exact notDerived ⟨layered, other⟩
      exact settled var layered comparison (justified.kept var notDerived ▸ isDefault)
    refine ⟨derived, inLayer, ?_⟩
    by_contra isTrue
    have derives := (isModel.derives_iff _).mp (Bool.eq_true_of_not_eq_false isTrue)
    have member := counted.complete wellFormed isModel justified drained derives derived.lt_length
      fun _ => inLayer.le
    rw [justified.derived var derived, if_pos member] at isDefault
    exact wellFormed.nonDefault_ne var derived isDefault
  have isNew : ∀ {literal : Condition}, literal ∈ ((task.nbfInfo phase).filter fun var =>
      state.buffer var = task.defaultValue var).map (fun var => ⟨var, task.defaultValue var⟩) →
        task.IsDerived literal.var ∧ task.axiomLayer literal.var = phase ∧
          model ⟨literal.var, nonDefault literal.var⟩ = false ∧
          literal.val = task.defaultValue literal.var := by
    intro literal member
    obtain ⟨var, isVar, rfl⟩ := List.mem_map.mp member
    obtain ⟨derived, inLayer, isFalse⟩ := negated var isVar
    exact ⟨derived, inLayer, isFalse, rfl⟩
  constructor
  · rw [List.nodup_append]
    refine ⟨justified.nodup, ?_, fun old member new member' same => ?_⟩
    · apply ((List.nodup_range.filter _).filter _).map
      exact fun first second same => congrArg Condition.var same
    · obtain ⟨derived, inLayer, -, isDefault⟩ := isNew member'
      have below := justified.phased old member (same ▸ derived) (same ▸ isDefault)
      rw [same, inLayer] at below
      exact lt_irrefl _ below
  · intro literal member
    cases List.mem_append.mp member with
    | inl old => exact justified.holds literal old
    | inr new =>
      obtain ⟨derived, -, isFalse, isDefault⟩ := isNew new
      rw [literalOf, if_pos ⟨derived, isDefault⟩, Literal.holds_iff]
      exact isFalse
  · intro literal member
    cases List.mem_append.mp member with
    | inl old => exact justified.within literal old
    | inr new =>
      obtain ⟨derived, -, -, isDefault⟩ := isNew new
      rw [reachable, List.mem_flatMap]
      refine ⟨literal.var, List.mem_range.mpr derived.lt_length, ?_⟩
      rw [← isDefault]
      simp
  · intro literal member derived isDefault
    cases List.mem_append.mp member with
    | inl old => exact (justified.phased literal old derived isDefault).trans (lt_add_one phase)
    | inr new => exact (isNew new).2.1 ▸ lt_add_one phase
  · intro var derived
    rw [justified.derived var derived]
    have notNew : (⟨var, nonDefault var⟩ : Condition) ∉ ((task.nbfInfo phase).filter fun var =>
        state.buffer var = task.defaultValue var).map (fun var => ⟨var, task.defaultValue var⟩) :=
      fun member => wellFormed.nonDefault_ne var derived (isNew member).2.2.2
    simp only [List.mem_append, notNew, or_false]
  · exact justified.kept
  · exact fun var bound notDerived => List.mem_append_left _ (justified.given var bound notDerived)
  · intro var derived below isFalse
    by_cases inLayer : task.axiomLayer var = phase
    · apply List.mem_append_right
      have unpushed : (⟨var, nonDefault var⟩ : Condition) ∉ processed := by
        intro member
        have isTrue := justified.holds _ member
        have positive : task.literalOf nonDefault ⟨var, nonDefault var⟩ =
            { atom := ⟨var, nonDefault var⟩, negated := false } :=
          if_neg fun both => wellFormed.nonDefault_ne var derived both.2
        rw [positive, Literal.holds_iff] at isTrue
        simp [isFalse] at isTrue
      have isDefault := justified.derived var derived
      rw [if_neg unpushed] at isDefault
      apply List.mem_map_of_mem
      rw [List.mem_filter, mem_nbfInfo, decide_eq_true_eq]
      exact ⟨⟨derived.1, fun last => notLast (inLayer ▸ last), inLayer⟩, isDefault⟩
    · exact List.mem_append_left _ (justified.failed var derived (by omega) isFalse)

/-! ## The start -/

theorem startVariable_eq (wellFormed : task.WellFormed nonDefault) (state : AxiomState) (var : ℕ) :
    task.startVariable state var =
      if task.IsDerived var then
        { state with buffer := Function.update state.buffer var (task.defaultValue var) }
      else { state with queue := state.queue ++ [⟨var, state.buffer var⟩] } := by
  unfold startVariable
  have layers := wellFormed.layers var
  by_cases given : task.axiomLayer var = -1
  · have notDerived : ¬ task.IsDerived var := fun derived => derived.1 given
    rw [if_pos given, if_neg notDerived]
  · have logic : ¬ task.axiomLayer var ≤ task.lastArithmeticAxiomLayer := by
      have above := (layers.resolve_left given).2
      omega
    rw [if_neg given, if_neg logic]
    by_cases comparison : task.axiomLayer var = task.comparisonAxiomLayer
    · have notDerived : ¬ task.IsDerived var := fun derived => derived.2 comparison
      rw [if_pos comparison, if_neg notDerived]
    · have derived : task.IsDerived var := ⟨given, comparison⟩
      rw [if_neg comparison, if_pos derived]

/-- The first loop sets derived variables to their default values and pushes all others. -/
theorem foldl_startVariable (wellFormed : task.WellFormed nonDefault) (state : AxiomState)
    (bound : ℕ) :
    (List.range bound).foldl task.startVariable state =
      { state with
        buffer := fun var =>
          if var < bound ∧ task.IsDerived var then task.defaultValue var else state.buffer var
        queue := state.queue ++
          ((List.range bound).filter fun var => ¬ task.IsDerived var).map
            fun var => ⟨var, state.buffer var⟩ } := by
  induction bound with
  | zero => simp
  | succ bound inductionHypothesis =>
    rw [List.range_succ, List.foldl_append, inductionHypothesis, List.foldl_cons, List.foldl_nil,
      startVariable_eq wellFormed]
    by_cases derived : task.IsDerived bound
    · rw [if_pos derived]
      congr 1
      · funext var
        by_cases same : var = bound
        · simp [same, derived]
        · have shift : var < bound + 1 ↔ var < bound := by omega
          simp [same, shift]
      · simp [derived]
    · rw [if_neg derived]
      congr 1
      · funext var
        by_cases same : var = bound
        · simp [same, derived]
        · have shift : var < bound + 1 ↔ var < bound := by omega
          simp [shift]
      · simp [derived]

theorem justified_start (wellFormed : task.WellFormed nonDefault)
    (isModel : LogicProgram.IsModel (task.program nonDefault) (task.base buffer) model) :
    task.Justified nonDefault buffer model 0
      (((List.range task.axiomLayers.length).filter fun var => ¬ task.IsDerived var).map
        fun var => ⟨var, buffer var⟩)
      (fun var => if var < task.axiomLayers.length ∧ task.IsDerived var then task.defaultValue var
        else buffer var) := by
  have isGiven : ∀ {literal : Condition}, literal ∈
      ((List.range task.axiomLayers.length).filter fun var => ¬ task.IsDerived var).map
        (fun var => (⟨var, buffer var⟩ : Condition)) →
        literal.var < task.axiomLayers.length ∧ ¬ task.IsDerived literal.var ∧
          literal.val = buffer literal.var := by
    intro literal member
    obtain ⟨var, isVar, rfl⟩ := List.mem_map.mp member
    simpa using isVar
  constructor
  · apply (List.nodup_range.filter _).map
    exact fun first second same => congrArg Condition.var same
  · intro literal member
    obtain ⟨-, notDerived, value⟩ := isGiven member
    have notHead : ¬ LogicProgram.IsHead (task.program nonDefault) literal :=
      fun isHead => notDerived (wellFormed.isHead_derived isHead).1
    rw [literalOf, if_neg fun both => notDerived both.1, Literal.holds_iff]
    simp [isModel.given literal notHead, base, notDerived, value]
  · intro literal member
    obtain ⟨bound, -, value⟩ := isGiven member
    rw [reachable, List.mem_flatMap]
    refine ⟨literal.var, List.mem_range.mpr bound, ?_⟩
    rw [← value]
    simp
  · exact fun literal member derived _ => absurd derived (isGiven member).2.1
  · intro var derived
    have unpushed : (⟨var, nonDefault var⟩ : Condition) ∉
        ((List.range task.axiomLayers.length).filter fun var => ¬ task.IsDerived var).map
          (fun var => (⟨var, buffer var⟩ : Condition)) :=
      fun member => (isGiven member).2.1 derived
    rw [if_neg unpushed, if_pos ⟨derived.lt_length, derived⟩]
  · exact fun var notDerived => if_neg fun both => notDerived both.2
  · intro var bound notDerived
    apply List.mem_map_of_mem
    simpa [bound] using notDerived
  · intro var derived below
    have nonneg := wellFormed.layer_nonneg derived
    omega

/-- The second loop sets the counters and applies the rules without conditions. -/
theorem foldl_startRule (wellFormed : task.WellFormed nonDefault)
    (isModel : LogicProgram.IsModel (task.program nonDefault) (task.base buffer) model)
    (items : List (PropositionalAxiom × ℕ)) : ∀ (started : List ℕ) (state : AxiomState),
    (∀ item ∈ items, task.logicAxioms[item.2]? = some item.1) →
    task.Justified nonDefault buffer model phase state.queue state.buffer →
    (∀ index ∈ started, ∀ rule, task.logicAxioms[index]? = some rule →
      state.unsatisfiedConditions index = rule.conditions.length ∧
        (rule.conditions = [] → rule.effect ∈ state.queue)) →
    task.Justified nonDefault buffer model phase (items.foldl startRule state).queue
        (items.foldl startRule state).buffer ∧
      ∀ index ∈ started ++ items.map Prod.snd, ∀ rule, task.logicAxioms[index]? = some rule →
        (items.foldl startRule state).unsatisfiedConditions index = rule.conditions.length ∧
          (rule.conditions = [] → rule.effect ∈ (items.foldl startRule state).queue) := by
  induction items with
  | nil => exact fun _ _ _ justified known => ⟨justified, by simpa using known⟩
  | cons item items inductionHypothesis =>
    intro started state found justified known
    rw [List.forall_mem_cons] at found
    have isRule := List.mem_of_getElem? found.1
    let counted : AxiomState :=
      { state with
        unsatisfiedConditions :=
          Function.update state.unsatisfiedConditions item.2 item.1.conditions.length }
    have same : task.Justified nonDefault buffer model phase ([] ++ counted.queue) counted.buffer :=
      justified
    have step : task.Justified nonDefault buffer model phase (startRule state item).queue
          (startRule state item).buffer ∧
        (item.1.conditions = [] → item.1.effect ∈ (startRule state item).queue) ∧
        (∀ literal ∈ state.queue, literal ∈ (startRule state item).queue) ∧
        (startRule state item).unsatisfiedConditions =
          Function.update state.unsatisfiedConditions item.2 item.1.conditions.length := by
      unfold startRule
      by_cases empty : item.1.conditions = []
      · obtain ⟨stays, written, grows⟩ := same.trigger wellFormed isModel isRule (by simp [empty])
        rw [if_pos (by simp [empty])]
        refine ⟨stays, fun _ => written, grows, ?_⟩
        unfold AxiomState.trigger
        split <;> rfl
      · rw [if_neg fun noLength => empty (List.length_eq_zero_iff.mp noLength)]
        exact ⟨justified, fun isEmpty => absurd isEmpty empty, fun _ member => member, rfl⟩
    obtain ⟨stays, written, grows, counters⟩ := step
    have after := inductionHypothesis (started ++ [item.2]) (startRule state item) found.2 stays ?_
    · simpa using after
    intro index member rule isFound
    rw [counters]
    by_cases own : index = item.2
    · subst own
      rw [found.1] at isFound
      cases isFound
      exact ⟨Function.update_self _ _ _, written⟩
    · have before : index ∈ started := by simpa [own] using member
      rw [Function.update_of_ne own]
      exact ⟨(known index before rule isFound).1,
        fun isEmpty => grows _ ((known index before rule isFound).2 isEmpty)⟩

theorem start_justified (wellFormed : task.WellFormed nonDefault)
    (isModel : LogicProgram.IsModel (task.program nonDefault) (task.base buffer) model) :
    task.Justified nonDefault buffer model 0 (task.start buffer).queue (task.start buffer).buffer ∧
      task.Counted [] [] (task.start buffer) := by
  have items : ∀ item ∈ task.logicAxioms.zipIdx, task.logicAxioms[item.2]? = some item.1 :=
    fun item member => List.mem_zipIdx_iff_getElem?.mp member
  obtain ⟨justified, known⟩ := foldl_startRule wellFormed isModel task.logicAxioms.zipIdx []
    ((List.range task.axiomLayers.length).foldl task.startVariable
      { buffer := buffer, queue := [], unsatisfiedConditions := fun _ => 0 }) items
    (by
      rw [foldl_startVariable wellFormed]
      exact justified_start wellFormed isModel) (by simp)
  have isIndex : ∀ {index : ℕ} {rule : PropositionalAxiom},
      task.logicAxioms[index]? = some rule → index ∈ [] ++ task.logicAxioms.zipIdx.map Prod.snd := by
    intro index rule found
    exact List.mem_map.mpr ⟨(rule, index), List.mem_zipIdx_iff_getElem?.mpr found, rfl⟩
  refine ⟨justified, ⟨fun index rule found => ?_, fun index rule found _ processed => ?_⟩⟩
  · have counter := (known index (isIndex found) rule found).1
    rw [start, counter]
    simp
  · apply (known index (isIndex found) rule found).2
    exact List.eq_nil_iff_forall_not_mem.mpr fun condition isCondition =>
      absurd (processed condition isCondition) List.not_mem_nil

/-! ## Layers -/

/-- The Horn rules of a layer end with everything derived that is true up to there. -/
theorem hornRules_layer (wellFormed : task.WellFormed nonDefault)
    (isModel : LogicProgram.IsModel (task.program nonDefault) (task.base buffer) model)
    (pick : AxiomState → ℕ) {processed : List Condition} {state : AxiomState}
    (justified : task.Justified nonDefault buffer model phase (processed ++ state.queue) state.buffer)
    (counted : task.Counted processed [] state) :
    ∃ result allProcessed,
      (∀ fuel, 3 * task.axiomLayers.length ≤ fuel →
        task.applyHornRules pick fuel state = some result) ∧
      result.queue = [] ∧
      task.Justified nonDefault buffer model phase allProcessed result.buffer ∧
      task.Counted allProcessed [] result := by
  have inside := justified.length_le
  rw [List.length_append] at inside
  obtain ⟨result, allProcessed, drains, rest⟩ := applyHornRules_drains wellFormed isModel pick
    (3 * task.axiomLayers.length - processed.length) processed state (by omega) justified counted
  exact ⟨result, allProcessed, fun fuel enough => drains fuel (by omega), rest⟩

theorem layers_justified (wellFormed : task.WellFormed nonDefault)
    (isModel : LogicProgram.IsModel (task.program nonDefault) (task.base buffer) model)
    (settled : task.ComparisonsSettled buffer) (pick : AxiomState → ℕ) (count : ℕ)
    (below : (count : ℤ) ≤ task.lastLayer) :
    ∃ result processed,
      (∀ fuel, 3 * task.axiomLayers.length ≤ fuel →
        (List.range count).foldlM (task.evaluateLayer pick fuel) (task.start buffer) =
          some result) ∧
      task.Justified nonDefault buffer model count (processed ++ result.queue) result.buffer ∧
      task.Counted processed [] result := by
  induction count with
  | zero =>
    obtain ⟨justified, counted⟩ := start_justified wellFormed isModel
    exact ⟨_, [], fun _ _ => rfl, justified, counted⟩
  | succ count inductionHypothesis =>
    obtain ⟨state, processed, returns, justified, counted⟩ := inductionHypothesis (by omega)
    obtain ⟨drained, allProcessed, horn, empty, stays, counts⟩ :=
      hornRules_layer wellFormed isModel pick justified counted
    have notLast : (count : ℤ) ≠ task.lastLayer := by omega
    have negated := stays.negate wellFormed isModel settled counts empty notLast
    refine ⟨(task.nbfInfo count).foldl task.applyNbf drained, allProcessed, fun fuel enough => ?_,
      ?_, ?_⟩
    · rw [List.range_succ, List.foldlM_append, returns fuel enough]
      simp [evaluateLayer, horn fuel enough, notLast]
    · rw [foldl_applyNbf, empty]
      exact_mod_cast negated
    · rw [foldl_applyNbf, empty]
      refine ⟨counts.counters, fun index rule found idle all => ?_⟩
      have written := counts.fired index rule found idle all
      rw [empty, List.append_nil] at written
      exact List.mem_append_left _ written

/-- The last layer is not below that of a derived variable. -/
theorem layers_final (wellFormed : task.WellFormed nonDefault)
    (isModel : LogicProgram.IsModel (task.program nonDefault) (task.base buffer) model)
    (settled : task.ComparisonsSettled buffer) (pick : AxiomState → ℕ)
    (nonneg : 0 ≤ task.lastLayer) :
    ∃ result : AxiomState,
      (∀ fuel, 3 * task.axiomLayers.length ≤ fuel →
        (List.range (task.lastLayer + 1).toNat).foldlM (task.evaluateLayer pick fuel)
          (task.start buffer) = some result) ∧
      (∀ var, task.IsDerived var → result.buffer var =
        if model ⟨var, nonDefault var⟩ then nonDefault var else task.defaultValue var) ∧
      ∀ var, ¬ task.IsDerived var → result.buffer var = buffer var := by
  obtain ⟨last, isLast⟩ := Int.eq_ofNat_of_zero_le nonneg
  obtain ⟨state, processed, returns, justified, counted⟩ :=
    layers_justified wellFormed isModel settled pick last isLast.ge
  obtain ⟨result, allProcessed, horn, empty, stays, counts⟩ :=
    hornRules_layer wellFormed isModel pick justified counted
  refine ⟨result, fun fuel enough => ?_, fun var derived => ?_, stays.kept⟩
  · have layers : (task.lastLayer + 1).toNat = last + 1 := by omega
    rw [layers, List.range_succ, List.foldlM_append, returns fuel enough]
    simp [evaluateLayer, horn fuel enough, isLast]
  · rw [stays.derived var derived]
    have positive : task.literalOf nonDefault ⟨var, nonDefault var⟩ =
        { atom := ⟨var, nonDefault var⟩, negated := false } :=
      if_neg fun both => wellFormed.nonDefault_ne var derived both.2
    have inLast : task.axiomLayer var ≤ last := isLast ▸ axiomLayer_le_lastLayer var
    by_cases isTrue : model ⟨var, nonDefault var⟩ = true
    · have derives := (isModel.derives_iff _).mp isTrue
      rw [if_pos isTrue, if_pos (counts.complete wellFormed isModel stays empty derives
        derived.lt_length fun _ => inLast)]
    · have unpushed : (⟨var, nonDefault var⟩ : Condition) ∉ allProcessed := by
        intro member
        have holds := stays.holds _ member
        rw [positive, Literal.holds_iff] at holds
        exact isTrue holds
      rw [if_neg isTrue, if_neg unpushed]

variable (task nonDefault) in
/-- There is one stratified model of the variables that are not derived; whatever the derived ones were
before and in every order of the queue, the evaluation ends with its values and changes no other
variable. -/
def ComputesModel (buffer : ℕ → ℤ) : Prop :=
  ∃ model, LogicProgram.IsModel (task.program nonDefault) (task.base buffer) model ∧
    (∀ other, LogicProgram.IsModel (task.program nonDefault) (task.base buffer) other →
      other = model) ∧
    ∀ stale : ℕ → ℤ, (∀ var, ¬ task.IsDerived var → stale var = buffer var) →
      ∀ pick : AxiomState → ℕ, ∃ result : ℕ → ℤ,
        (∀ fuel, 3 * task.axiomLayers.length ≤ fuel →
          task.evaluateLogicAxioms pick fuel stale = some result) ∧
        (∀ var, task.IsDerived var →
          (result var = nonDefault var ↔ model ⟨var, nonDefault var⟩ = true) ∧
          (result var = task.defaultValue var ↔ model ⟨var, nonDefault var⟩ = false)) ∧
        ∀ var, ¬ task.IsDerived var → result var = stale var

theorem evaluateLogicAxioms_computesModel (task : LogicTask) (nonDefault : ℕ → ℤ)
    (wellFormed : task.WellFormed nonDefault) (buffer : ℕ → ℤ)
    (settled : task.ComparisonsSettled buffer) : task.ComputesModel nonDefault buffer := by
  obtain ⟨model, isModel⟩ : ∃ model,
      LogicProgram.IsModel (task.program nonDefault) (task.base buffer) model :=
    ⟨_, LogicProgram.stratifiedModel_isModel wellFormed.stratifies (task.base buffer)⟩
  refine ⟨model, isModel, fun other otherModel =>
    LogicProgram.model_unique wellFormed.stratifies otherModel isModel, ?_⟩
  intro stale same pick
  unfold evaluateLogicAxioms
  by_cases noRules : task.logicAxioms = []
  · refine ⟨stale, fun _ _ => if_pos noRules, fun var derived => ?_, fun _ _ => rfl⟩
    exact absurd derived (wellFormed.noRules noRules var)
  · -- some variable is derived, so there is a layer
    obtain ⟨rule, isRule⟩ := List.exists_mem_of_ne_nil _ noRules
    have derived := (wellFormed.derives rule isRule).1
    have nonneg := (wellFormed.layer_nonneg derived).trans (axiomLayer_le_lastLayer _)
    have sameBase : task.base stale = task.base buffer := by
      funext atom
      by_cases atomDerived : task.IsDerived atom.var
      · simp [base, atomDerived]
      · simp [base, same atom.var atomDerived]
    have staleSettled : task.ComparisonsSettled stale := by
      intro var layered comparison
      rw [same var fun derived => derived.2 comparison]
      exact settled var layered comparison
    obtain ⟨result, returns, values, kept⟩ :=
      layers_final wellFormed (sameBase ▸ isModel) staleSettled pick nonneg
    refine ⟨result.buffer, fun fuel enough => ?_, fun var varDerived => ?_, kept⟩
    · rw [if_neg noRules, returns fuel enough]
      rfl
    · have differs := wellFormed.nonDefault_ne var varDerived
      rw [values var varDerived]
      split
      · rename_i isTrue
        simp [isTrue, differs]
      · rename_i isFalse
        simp [isFalse, differs.symm]

/-- A comparison, a variable and a rule that needs both. -/
def guardedTask : LogicTask where
  axiomLayers := [0, -1, 1]
  lastArithmeticAxiomLayer := -1
  hasCompAxioms := true
  defaultAxiomValues := [0, 0, 0]
  logicAxioms := [{ affectedVariable := 2, effectVal := 1, conditions := [⟨0, 0⟩, ⟨1, 1⟩] }]

theorem guardedTask_isDerived {var : ℕ} (derived : guardedTask.IsDerived var) : var = 2 := by
  have bound := derived.lt_length
  obtain rfl | rfl | rfl : var = 0 ∨ var = 1 ∨ var = 2 := by
    simp only [guardedTask, List.length_cons, List.length_nil] at bound
    omega
  · exact absurd derived (by decide)
  · exact absurd derived (by decide)
  · rfl

theorem guardedTask_wellFormed : guardedTask.WellFormed fun _ => 1 where
  layers := by
    intro var
    by_cases bound : var < guardedTask.axiomLayers.length
    · obtain rfl | rfl | rfl : var = 0 ∨ var = 1 ∨ var = 2 := by
        simp only [guardedTask, List.length_cons, List.length_nil] at bound
        omega
      all_goals decide
    · exact .inl (by_contra fun layered => bound (lt_length_of_layer layered))
  derives := by decide
  nonDefault_ne := by
    intro var derived
    rw [guardedTask_isDerived derived]
    decide
  inBounds := by decide
  binary := by
    intro rule isRule condition isCondition derived
    have notDerived : ∀ rule ∈ guardedTask.logicAxioms, ∀ condition ∈ rule.conditions,
        condition.var ≠ 2 := by decide
    exact absurd (guardedTask_isDerived derived) (notDerived rule isRule condition isCondition)
  stratified := by
    intro rule isRule condition isCondition derived
    have notDerived : ∀ rule ∈ guardedTask.logicAxioms, ∀ condition ∈ rule.conditions,
        condition.var ≠ 2 := by decide
    exact absurd (guardedTask_isDerived derived) (notDerived rule isRule condition isCondition)
  noRules := by simp [guardedTask]

theorem evaluateLogicAxioms_computesModel_guarded :
    guardedTask.ComputesModel (fun _ => 1) fun _ => 1 :=
  evaluateLogicAxioms_computesModel guardedTask (fun _ => 1) guardedTask_wellFormed (fun _ => 1) (by
    intro var layered comparison
    have bound := lt_length_of_layer layered
    obtain rfl | rfl | rfl : var = 0 ∨ var = 1 ∨ var = 2 := by
      simp only [guardedTask, List.length_cons, List.length_nil] at bound
      omega
    all_goals decide)

/-- The comparison has its default value, so its literal comes a second time and stands for the
condition that does not hold. -/
theorem guardedTask_defaultComparison :
    guardedTask.WellFormed (fun _ => 1) ∧ ¬ guardedTask.ComputesModel (fun _ => 1) fun _ => 0 := by
  refine ⟨guardedTask_wellFormed, fun ⟨model, isModel, _, computes⟩ => ?_⟩
  obtain ⟨result, returns, values, _⟩ := computes (fun _ => 0) (fun _ _ => rfl) lastIn
  have derived : (guardedTask.evaluateLogicAxioms lastIn 9 fun _ => 0).map (· 2) = some 1 := by
    decide +kernel
  rw [returns 9 (by decide)] at derived
  have isTrue := (values 2 (by decide)).1.mp (Option.some.inj derived)
  obtain ⟨clause, isClause, -, holds⟩ := isModel.body_of_true
    (WellFormed.isHead_iff.mpr ⟨_, List.mem_singleton_self _, rfl⟩) isTrue
  -- the only rule needs a fact that is not given
  rw [List.mem_singleton.mp isClause, bodyHolds_iff] at holds
  have second := holds { atom := ⟨1, 1⟩, negated := false } (by decide)
  rw [Literal.holds_iff, isModel.given ⟨1, 1⟩ (by decide)] at second
  exact absurd second (by decide)

end LogicTask

end CutPlan.Search
