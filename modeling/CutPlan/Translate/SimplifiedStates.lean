import CutPlan.Preprocess.AxiomEvaluation
import CutPlan.Translate.Renaming

/-! # States of the simplified task

A state of the task and one of its simplification correspond to each other if the values that are kept
are the renamed ones.  Conditions, axioms and operators keep such states in correspondence.
-/

namespace CutPlan.Translate

open CutPlan.Lib CutPlan.Sas VarValueRenaming

namespace SasTask

variable {task : SasTask}

/-- All values are reached, and the varying variables have their new values under their new names. -/
structure Matches (task : SasTask) (values newValues : ℕ → ℤ) : Prop where
  reached : ∀ var < task.ranges.length, task.Reaches var (values var)
  renamed : ∀ var < task.ranges.length, task.Varies var →
    newValues (task.newVar var) = task.newValue var (values var)

variable {values newValues : ℕ → ℤ}

/-! ## Conditions -/

theorem Valid.convertPair_error (valid : task.Valid) {fact : Condition}
    (validFact : task.ValidFact fact) {stop : Stop}
    (stops : task.numbering.convertPair fact = .error stop) :
    stop = .impossible ∧ ¬ task.Reaches fact.var fact.val := by
  have translated := valid.translated validFact
  unfold convertPair at stops
  cases result : task.numbering.translatePair fact with
  | mk newVar newValue =>
    rw [result] at translated stops
    cases translated with
    | unreached _ unreached =>
      cases newVar <;> exact ⟨(Except.error.inj stops).symm, unreached⟩
    | only reached constant => cases stops
    | kept reached varies => cases stops

theorem Valid.convertPair_ok (valid : task.Valid) {fact : Condition}
    (validFact : task.ValidFact fact) {newFact : Option Condition}
    (converts : task.numbering.convertPair fact = .ok newFact) :
    task.Reaches fact.var fact.val ∧
      (¬ task.Varies fact.var ∧ newFact = none ∨
        task.Varies fact.var ∧ newFact = some
          { var := task.newVar fact.var, val := task.newValue fact.var fact.val }) := by
  have translated := valid.translated validFact
  unfold convertPair at converts
  cases result : task.numbering.translatePair fact with
  | mk newVar newValue =>
    rw [result] at translated converts
    cases translated with
    | unreached _ unreached => cases newVar <;> cases converts
    | only reached constant =>
      exact ⟨reached, .inl ⟨constant, (Except.ok.inj converts).symm⟩⟩
    | kept reached varies =>
      exact ⟨reached, .inr ⟨varies, (Except.ok.inj converts).symm⟩⟩

theorem convertPairs_cons {mapping : VarValueRenaming} {fact : Condition} {facts : List Condition} :
    mapping.convertPairs (fact :: facts) =
      match mapping.convertPair fact with
      | .error stop => .error stop
      | .ok newFact =>
        match mapping.convertPairs facts with
        | .error stop => .error stop
        | .ok newFacts => .ok (newFact.toList ++ newFacts) := by
  rw [convertPairs]
  cases mapping.convertPair fact with
  | error stop => rfl
  | ok newFact => cases mapping.convertPairs facts <;> rfl

theorem Valid.convertPairs_error (valid : task.Valid) {facts : List Condition}
    (validFacts : ∀ fact ∈ facts, task.ValidFact fact) {stop : Stop}
    (stops : task.numbering.convertPairs facts = .error stop) :
    stop = .impossible ∧ ∃ fact ∈ facts, ¬ task.Reaches fact.var fact.val := by
  induction facts with
  | nil => cases stops
  | cons fact facts inductionHypothesis =>
    rw [List.forall_mem_cons] at validFacts
    rw [convertPairs_cons] at stops
    cases first : task.numbering.convertPair fact with
    | error firstStop =>
      rw [first] at stops
      cases stops
      obtain ⟨isImpossible, unreached⟩ := valid.convertPair_error validFacts.1 first
      exact ⟨isImpossible, fact, List.mem_cons_self, unreached⟩
    | ok newFact =>
      rw [first] at stops
      cases rest : task.numbering.convertPairs facts with
      | error restStop =>
        rw [rest] at stops
        cases stops
        obtain ⟨isImpossible, other, member, unreached⟩ := inductionHypothesis validFacts.2 rest
        exact ⟨isImpossible, other, List.mem_cons_of_mem _ member, unreached⟩
      | ok newFacts =>
        rw [rest] at stops
        cases stops

/-- Facts that are converted are reached, and the new facts are those of varying variables. -/
theorem Valid.convertPairs_ok (valid : task.Valid) {facts : List Condition}
    (validFacts : ∀ fact ∈ facts, task.ValidFact fact) {newFacts : List Condition}
    (converts : task.numbering.convertPairs facts = .ok newFacts) :
    (∀ fact ∈ facts, task.Reaches fact.var fact.val) ∧
      ∀ newFact, newFact ∈ newFacts ↔ ∃ fact ∈ facts, task.Varies fact.var ∧
        newFact = { var := task.newVar fact.var, val := task.newValue fact.var fact.val } := by
  induction facts generalizing newFacts with
  | nil =>
    cases converts
    simp
  | cons fact facts inductionHypothesis =>
    rw [List.forall_mem_cons] at validFacts
    rw [convertPairs_cons] at converts
    cases first : task.numbering.convertPair fact with
    | error stop =>
      rw [first] at converts
      cases converts
    | ok converted =>
      rw [first] at converts
      cases rest : task.numbering.convertPairs facts with
      | error stop =>
        rw [rest] at converts
        cases converts
      | ok others =>
        rw [rest] at converts
        cases converts
        obtain ⟨reached, cases'⟩ := valid.convertPair_ok validFacts.1 first
        obtain ⟨restReached, restFacts⟩ := inductionHypothesis validFacts.2 rest
        refine ⟨List.forall_mem_cons.mpr ⟨reached, restReached⟩, fun newFact => ?_⟩
        obtain ⟨constant, rfl⟩ | ⟨varies, rfl⟩ := cases'
        · simp [restFacts, constant]
        · simp [restFacts, varies]

theorem Valid.renamed_iff (valid : task.Valid) (matched : task.Matches values newValues)
    {fact : Condition} (isVar : fact.var < task.ranges.length)
    (reached : task.Reaches fact.var fact.val) (varies : task.Varies fact.var) :
    newValues (task.newVar fact.var) = task.newValue fact.var fact.val ↔
      values fact.var = fact.val := by
  rw [matched.renamed fact.var isVar varies, Int.natCast_inj]
  exact valid.newValue_inj isVar (matched.reached fact.var isVar) reached

theorem Valid.allHold_impossible (valid : task.Valid)
    (reached : ∀ var < task.ranges.length, task.Reaches var (values var)) {facts : List Condition}
    (validFacts : ∀ fact ∈ facts, task.ValidFact fact) {stop : Stop}
    (stops : task.numbering.convertPairs facts = .error stop) :
    Condition.allHold facts values = false := by
  obtain ⟨_, fact, member, unreached⟩ := valid.convertPairs_error validFacts stops
  rw [Condition.allHold, List.all_eq_false]
  refine ⟨fact, member, ?_⟩
  rw [decide_eq_true_eq]
  intro holds
  exact unreached (holds ▸ reached fact.var (validFacts fact member).mem_domain.1)

theorem Valid.allHold_converted (valid : task.Valid) (matched : task.Matches values newValues)
    {facts : List Condition} (validFacts : ∀ fact ∈ facts, task.ValidFact fact)
    {newFacts : List Condition} (converts : task.numbering.convertPairs facts = .ok newFacts) :
    Condition.allHold newFacts newValues = Condition.allHold facts values := by
  obtain ⟨reached, newFacts_iff⟩ := valid.convertPairs_ok validFacts converts
  rw [Bool.eq_iff_iff, Condition.allHold, Condition.allHold, List.all_eq_true, List.all_eq_true]
  simp only [decide_eq_true_eq]
  constructor
  · intro hold fact member
    have isVar := (validFacts fact member).mem_domain.1
    by_cases varies : task.Varies fact.var
    · have holds := hold _ ((newFacts_iff _).mpr ⟨fact, member, varies, rfl⟩)
      exact (valid.renamed_iff matched isVar (reached fact member) varies).mp holds
    · rw [valid.eq_init_of_not_varies isVar varies (matched.reached fact.var isVar),
        valid.eq_init_of_not_varies isVar varies (reached fact member)]
  · intro hold newFact member
    obtain ⟨fact, isFact, varies, rfl⟩ := (newFacts_iff newFact).mp member
    exact (valid.renamed_iff matched (validFacts fact isFact).mem_domain.1 (reached fact isFact)
      varies).mpr (hold fact isFact)

theorem Valid.match_update (valid : task.Valid) (matched : task.Matches values newValues)
    {var : ℕ} {value : ℤ} (isVar : var < task.ranges.length) (reached : task.Reaches var value)
    (varies : task.Varies var) :
    task.Matches (Function.update values var value)
      (Function.update newValues (task.newVar var) (task.newValue var value)) where
  reached := by
    intro other isOther
    by_cases same : other = var
    · subst same
      rwa [Function.update_self]
    · rw [Function.update_of_ne same]
      exact matched.reached other isOther
  renamed := by
    intro other isOther otherVaries
    by_cases same : other = var
    · subst same
      rw [Function.update_self, Function.update_self]
    · have different : task.newVar other ≠ task.newVar var := fun equal =>
        same ((valid.newVar_inj isOther isVar otherVaries varies).mp equal)
      rw [Function.update_of_ne same, Function.update_of_ne different]
      exact matched.renamed other isOther otherVaries

/-- A variable that does not vary is written in the original task only. -/
theorem Valid.match_update_constant (valid : task.Valid) (matched : task.Matches values newValues)
    {var : ℕ} {value : ℤ} (isVar : var < task.ranges.length) (reached : task.Reaches var value)
    (constant : ¬ task.Varies var) : Function.update values var value = values := by
  rw [Function.update_eq_self_iff, valid.eq_init_of_not_varies isVar constant reached,
    valid.eq_init_of_not_varies isVar constant (matched.reached var isVar)]

end SasTask

end CutPlan.Translate
