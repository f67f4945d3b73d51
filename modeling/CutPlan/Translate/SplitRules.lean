import CutPlan.Translate.NumberedRules

/-! # Splitting a rule

What it means to split a rule of the grounding program into several rules with new predicates: the old
predicates keep their atoms, and the new rules are in normal form and pass the checks of the model computation.
A rule may be split step by step, one part of its conditions at a time.
-/

set_option linter.unusedSectionVars false

namespace CutPlan.Translate

open CutPlan.Lib

variable {Pred Var Obj : Type}

/-- None of the names that the counter has not reached yet. -/
def Unused (newName : ℕ → Pred) (count : ℕ) (predicate : Pred) : Prop :=
  ∀ number ≥ count, predicate ≠ newName number

structure Fresh (newName : ℕ → Pred) (count : ℕ) (facts : Set (Atom Pred Obj))
    (rules : Set (DatalogRule Pred Var Obj)) : Prop where
  facts : ∀ fact ∈ facts, Unused newName count fact.predicate
  rules : ∀ rule ∈ rules, ∀ predicate, rule.Mentions predicate → Unused newName count predicate

def ruleSet (rules : List (TypedRule Pred Var Obj)) : Set (DatalogRule Pred Var Obj) :=
  {rule | ∃ typed ∈ rules, typed.rule = rule}

@[simp] theorem ruleSet_nil : ruleSet ([] : List (TypedRule Pred Var Obj)) = ∅ := by
  simp [ruleSet]

@[simp] theorem ruleSet_cons (typed : TypedRule Pred Var Obj) (rules : List (TypedRule Pred Var Obj)) :
    ruleSet (typed :: rules) = insert typed.rule (ruleSet rules) := by
  ext rule
  simp [ruleSet, eq_comm]

theorem ruleSet_append (first second : List (TypedRule Pred Var Obj)) :
    ruleSet (first ++ second) = ruleSet first ∪ ruleSet second := by
  ext rule
  simp [ruleSet, or_and_right, exists_or]

structure RuleSized (arity : Pred → ℕ) (rule : DatalogRule Pred Var Obj) : Prop where
  effect : rule.effect.args.length = arity rule.effect.predicate
  conditions : ∀ condition ∈ rule.conditions, condition.args.length = arity condition.predicate

/-- A name that was given between two states of the counter. -/
def Given (newName : ℕ → Pred) (count nextCount : ℕ) (predicate : Pred) : Prop :=
  ∃ number, count ≤ number ∧ number < nextCount ∧ predicate = newName number

variable [DecidableEq Pred] [DecidableEq Var] [DecidableEq Obj]

/-! ## The checks of the conversion -/

section Checks

variable {effect condition left right : SymbolicAtom Pred Var Obj}

theorem mem_variableArgs_numbered {map : Dictionary Var ℕ} {argument : BuildArgument Var Obj} :
    argument ∈ variableArgs (⟨condition.predicate, condition.args.map (numberArgument map)⟩ :
      BuildAtom Pred Var Obj) ↔
        ∃ name ∈ variablesOf condition, argument = numberArgument map (.var name) := by
  simp only [variableArgs, List.mem_filter, List.mem_map, mem_variablesOf]
  constructor
  · rintro ⟨⟨original, member, rfl⟩, isVariable⟩
    cases original with
    | var name => exact ⟨name, member, rfl⟩
    | object known => cases isVariable
  · rintro ⟨name, member, rfl⟩
    refine ⟨⟨_, member, rfl⟩, ?_⟩
    rw [numberArgument]
    cases map.get? name <;> rfl

theorem mem_variableArgs_effect (distinct : (variablesOf effect).Nodup) {argument : BuildArgument Var Obj} :
    argument ∈ variableArgs (⟨effect.predicate, effect.args.zipIdx.map numberEffectArgument⟩ :
      BuildAtom Pred Var Obj) ↔
        ∃ name ∈ variablesOf effect, argument = numberArgument (renameMap effect) (.var name) := by
  have isNumber : ∀ {name : Var} {index : ℕ}, effect.args[index]? = some (.var name) →
      numberArgument (renameMap effect) (.var name) = .position index := fun atIndex =>
    (numberArgument_eq_position distinct).mpr ⟨_, rfl, atIndex⟩
  simp only [variableArgs, List.mem_filter, List.mem_map, Prod.exists, List.mem_zipIdx_iff_getElem?, mem_variablesOf]
  constructor
  · rintro ⟨⟨original, index, atIndex, rfl⟩, isVariable⟩
    cases original with
    | object known => cases isVariable
    | var name => exact ⟨name, List.mem_of_getElem? atIndex, (isNumber atIndex).symm⟩
  · rintro ⟨name, member, rfl⟩
    obtain ⟨index, atIndex⟩ := List.mem_iff_getElem?.mp member
    exact ⟨⟨_, index, atIndex, (isNumber atIndex).symm⟩, by rw [isNumber atIndex]; rfl⟩

theorem numberArgument_var_injective (distinct : (variablesOf effect).Nodup) {first second : Var}
    (same : numberArgument (renameMap effect) (.var first : Term Var Obj) =
      numberArgument (renameMap effect) (.var second)) : first = second := by
  cases isFirst : numberArgument (renameMap effect) (.var first : Term Var Obj) with
  | position index =>
    rw [isFirst] at same
    obtain ⟨_, isVar, atIndex⟩ := (numberArgument_eq_position distinct).mp isFirst
    obtain ⟨_, isVar', atIndex'⟩ := (numberArgument_eq_position distinct).mp same.symm
    cases isVar
    cases isVar'
    exact Term.var.inj (Option.some.inj (atIndex.symm.trans atIndex'))
  | term kept =>
    simp only [numberArgument] at isFirst same
    cases isIndex : (renameMap effect).get? first with
    | some index => simp [isIndex] at isFirst
    | none =>
      rw [isIndex] at same
      cases isIndex' : (renameMap effect).get? second with
      | some index => simp [isIndex'] at same
      | none => simpa [isIndex'] using same

theorem joinRule_validate_iff {rule : JoinRule Pred Var Obj} :
    rule.validate = true ↔ (∃ argument ∈ variableArgs rule.left, argument ∈ variableArgs rule.right) ∧
      (∀ argument, argument ∈ variableArgs rule.left ∨ argument ∈ variableArgs rule.right →
        argument ∈ variableArgs rule.left ∧ argument ∈ variableArgs rule.right ∨ argument ∈ variableArgs rule.effect) ∧
      ∀ argument ∈ variableArgs rule.effect, argument ∈ variableArgs rule.left ∨ argument ∈ variableArgs rule.right := by
  simp only [JoinRule.validate, Bool.and_eq_true, List.any_eq_true, List.all_eq_true, decide_eq_true_eq,
    List.mem_append, and_assoc]

theorem productRule_validate_iff {rule : ProductRule Pred Var Obj} :
    rule.validate = true ↔ 2 ≤ rule.conditions.length ∧
      (rule.conditions.map fun condition => (variableArgs condition).dedup).flatten.dedup.length =
        (variableArgs rule.effect).dedup.length ∧
      (rule.conditions.map fun condition => (variableArgs condition).dedup).flatten.dedup.length =
        ((rule.conditions.map fun condition => (variableArgs condition).dedup).map List.length).sum := by
  simp only [ProductRule.validate, Bool.and_eq_true, decide_eq_true_eq, and_assoc]

theorem convertRule_join (distinct : (variablesOf effect).Nodup)
    (shared : ∃ name, name ∈ variablesOf left ∧ name ∈ variablesOf right)
    (kept : ∀ name, name ∈ variablesOf left ∨ name ∈ variablesOf right →
      name ∈ variablesOf left ∧ name ∈ variablesOf right ∨ name ∈ variablesOf effect)
    (bound : ∀ name ∈ variablesOf effect, name ∈ variablesOf left ∨ name ∈ variablesOf right) :
    (convertRule ⟨.join, ⟨[left, right], effect⟩⟩).isSome = true := by
  have valid : (JoinRule.ofConditions (variablesToNumbers effect [left, right]).1
      ⟨left.predicate, left.args.map (numberArgument (renameMap effect))⟩
      ⟨right.predicate, right.args.map (numberArgument (renameMap effect))⟩).validate = true := by
    rw [joinRule_validate_iff]
    simp only [JoinRule.ofConditions, variablesToNumbers, mem_variableArgs_numbered, mem_variableArgs_effect distinct]
    refine ⟨?_, ?_, ?_⟩
    · obtain ⟨name, inLeft, inRight⟩ := shared
      exact ⟨_, ⟨name, inLeft, rfl⟩, name, inRight, rfl⟩
    · rintro argument (⟨name, member, rfl⟩ | ⟨name, member, rfl⟩)
      · rcases kept name (Or.inl member) with ⟨inLeft, inRight⟩ | inEffect
        · exact Or.inl ⟨⟨name, inLeft, rfl⟩, name, inRight, rfl⟩
        · exact Or.inr ⟨name, inEffect, rfl⟩
      · rcases kept name (Or.inr member) with ⟨inLeft, inRight⟩ | inEffect
        · exact Or.inl ⟨⟨name, inLeft, rfl⟩, name, inRight, rfl⟩
        · exact Or.inr ⟨name, inEffect, rfl⟩
    · rintro argument ⟨name, inEffect, rfl⟩
      exact (bound name inEffect).imp (fun inLeft => ⟨name, inLeft, rfl⟩) fun inRight => ⟨name, inRight, rfl⟩
  simp only [convertRule, BuildRule.ofType?, variablesToNumbers, List.map_cons, List.map_nil] at valid ⊢
  rw [if_pos valid]
  rfl

end Checks

/-! ## Rewriting sets of rules -/

/-- The rewritten rules have new predicates, and derive the same atoms over the other ones. -/
structure Rewrites (newName : ℕ → Pred) (rules : Set (DatalogRule Pred Var Obj)) (count : ℕ)
    (rewritten : Set (DatalogRule Pred Var Obj)) (nextCount : ℕ) : Prop where
  mono : count ≤ nextCount
  mentions : ∀ rule ∈ rewritten, ∀ predicate, rule.Mentions predicate →
    (∃ original ∈ rules, original.Mentions predicate) ∨ Given newName count nextCount predicate
  preserves : ∀ (facts : Set (Atom Pred Obj)) context, Fresh newName count facts (rules ∪ context) →
    ∀ atom, Unused newName count atom.predicate →
      (LeastModel facts (rules ∪ context) atom ↔ LeastModel facts (rewritten ∪ context) atom)
  keepsShared : (∀ rule ∈ rules, KeepsShared rule) → ∀ rule ∈ rewritten, KeepsShared rule
  sized : ∀ arity, (∀ rule ∈ rules, RuleSized arity rule) →
    (∀ rule ∈ rules, ∀ predicate, rule.Mentions predicate → Unused newName count predicate) →
      ∃ extended, (∀ predicate, Unused newName count predicate → extended predicate = arity predicate) ∧
        ∀ rule ∈ rewritten, RuleSized extended rule

theorem Unused.later {newName : ℕ → Pred} {count later : ℕ} {predicate : Pred}
    (unused : Unused newName count predicate) (le : count ≤ later) : Unused newName later predicate :=
  fun number atLeast => unused number (le.trans atLeast)

theorem Given.unused {newName : ℕ → Pred} {count nextCount : ℕ} {predicate : Pred}
    (given : Given newName count nextCount predicate) (injective : Function.Injective newName) :
    Unused newName nextCount predicate := by
  obtain ⟨number, _, below, rfl⟩ := given
  intro other atLeast same
  have := injective same
  omega

theorem Given.widen {newName : ℕ → Pred} {count nextCount first last : ℕ} {predicate : Pred}
    (given : Given newName count nextCount predicate) (leFirst : first ≤ count) (leLast : nextCount ≤ last) :
    Given newName first last predicate := by
  obtain ⟨number, atLeast, below, same⟩ := given
  exact ⟨number, leFirst.trans atLeast, below.trans_le leLast, same⟩

theorem KeepsShared.perm {conditions reordered : List (SymbolicAtom Pred Var Obj)}
    {effect : SymbolicAtom Pred Var Obj} (same : conditions.Perm reordered)
    (keepsShared : KeepsShared ⟨conditions, effect⟩) : KeepsShared ⟨reordered, effect⟩ := by
  refine (same.pairwise_iff ?_).mp keepsShared
  intro first second shared name inSecond inFirst
  exact shared name inFirst inSecond

namespace Rewrites

variable {newName : ℕ → Pred} {rules rewritten others : Set (DatalogRule Pred Var Obj)}
  {count nextCount lastCount : ℕ}

theorem refl (rules : Set (DatalogRule Pred Var Obj)) (le : count ≤ nextCount) :
    Rewrites newName rules count rules nextCount where
  mono := le
  mentions := fun rule isRule _ mentions => Or.inl ⟨rule, isRule, mentions⟩
  preserves := fun _ _ _ _ _ => Iff.rfl
  keepsShared := fun keepsShared => keepsShared
  sized := fun arity sized _ => ⟨arity, fun _ _ => rfl, sized⟩

/-- What is mentioned after the rewriting is not a name that is given later. -/
theorem unused (rewrites : Rewrites newName rules count rewritten nextCount) (injective : Function.Injective newName)
    (isUnused : ∀ rule ∈ rules, ∀ predicate, rule.Mentions predicate → Unused newName count predicate) :
    ∀ rule ∈ rewritten, ∀ predicate, rule.Mentions predicate → Unused newName nextCount predicate := by
  intro rule isRule predicate mentions
  rcases rewrites.mentions rule isRule predicate mentions with ⟨original, isOriginal, mentionsIt⟩ | given
  · exact (isUnused original isOriginal predicate mentionsIt).later rewrites.mono
  · exact given.unused injective

theorem fresh (rewrites : Rewrites newName rules count rewritten nextCount) (injective : Function.Injective newName)
    {facts : Set (Atom Pred Obj)} {context : Set (DatalogRule Pred Var Obj)}
    (isFresh : Fresh newName count facts (rules ∪ context)) : Fresh newName nextCount facts (rewritten ∪ context) := by
  constructor
  · exact fun fact isFact => (isFresh.facts fact isFact).later rewrites.mono
  · rintro rule (isRule | isContext) predicate mentions
    · exact rewrites.unused injective (fun original isOriginal => isFresh.rules original (Or.inl isOriginal)) rule isRule
        predicate mentions
    · exact (isFresh.rules rule (Or.inr isContext) predicate mentions).later rewrites.mono

theorem trans {final : Set (DatalogRule Pred Var Obj)}
    (first : Rewrites newName rules count rewritten nextCount) (injective : Function.Injective newName)
    (second : Rewrites newName rewritten nextCount final lastCount) : Rewrites newName rules count final lastCount where
  mono := first.mono.trans second.mono
  mentions := by
    intro rule isRule predicate mentions
    rcases second.mentions rule isRule predicate mentions with ⟨middle, isMiddle, mentionsIt⟩ | given
    · refine (first.mentions middle isMiddle predicate mentionsIt).imp_right fun given => ?_
      exact given.widen le_rfl second.mono
    · exact Or.inr (given.widen first.mono le_rfl)
  preserves := by
    intro facts context isFresh atom isUnused
    rw [first.preserves facts context isFresh atom isUnused]
    exact second.preserves facts context (first.fresh injective isFresh) atom (isUnused.later first.mono)
  keepsShared := fun keepsShared => second.keepsShared (first.keepsShared keepsShared)
  sized := by
    intro arity sized isUnused
    obtain ⟨middle, agrees, middleSized⟩ := first.sized arity sized isUnused
    obtain ⟨extended, agreesLater, finalSized⟩ :=
      second.sized middle middleSized (first.unused injective isUnused)
    refine ⟨extended, fun predicate unusedPredicate => ?_, finalSized⟩
    rw [agreesLater predicate (unusedPredicate.later first.mono), agrees predicate unusedPredicate]

/-- Other rules stay as they are. -/
theorem frame (rewrites : Rewrites newName rules count rewritten nextCount)
    (others : Set (DatalogRule Pred Var Obj)) :
    Rewrites newName (rules ∪ others) count (rewritten ∪ others) nextCount where
  mono := rewrites.mono
  mentions := by
    rintro rule (isRule | isOther) predicate mentions
    · refine (rewrites.mentions rule isRule predicate mentions).imp_left ?_
      rintro ⟨original, isOriginal, mentionsIt⟩
      exact ⟨original, Or.inl isOriginal, mentionsIt⟩
    · exact Or.inl ⟨rule, Or.inr isOther, mentions⟩
  preserves := by
    intro facts context isFresh atom isUnused
    rw [Set.union_assoc] at isFresh ⊢
    rw [Set.union_assoc]
    exact rewrites.preserves facts (others ∪ context) isFresh atom isUnused
  keepsShared := by
    rintro keepsShared rule (isRule | isOther)
    · exact rewrites.keepsShared (fun original isOriginal => keepsShared original (Or.inl isOriginal)) rule isRule
    · exact keepsShared rule (Or.inr isOther)
  sized := by
    intro arity sized isUnused
    obtain ⟨extended, agrees, rewrittenSized⟩ := rewrites.sized arity (fun rule isRule => sized rule (Or.inl isRule))
      fun rule isRule => isUnused rule (Or.inl isRule)
    refine ⟨extended, agrees, ?_⟩
    rintro rule (isRule | isOther)
    · exact rewrittenSized rule isRule
    · -- The other rules have only predicates with their old arities.
      have old : ∀ predicate, rule.Mentions predicate → extended predicate = arity predicate := fun predicate mentions =>
        agrees predicate (isUnused rule (Or.inr isOther) predicate mentions)
      have wasSized := sized rule (Or.inr isOther)
      refine ⟨by rw [wasSized.effect, old _ (Or.inl rfl)], fun condition member => ?_⟩
      rw [wasSized.conditions condition member, old _ (Or.inr ⟨condition, member, rfl⟩)]

/-- A part of the conditions becomes a rule of its own. -/
theorem fold {whole part folded : DatalogRule Pred Var Obj}
    {others : List (SymbolicAtom Pred Var Obj)} (folds : Folds whole part folded others)
    (isNew : part.effect.predicate = newName count)
    (keepsShared : KeepsShared whole → KeepsShared part ∧ KeepsShared folded) :
    Rewrites newName {whole} count {part, folded} (count + 1) := by
  have partMentions : ∀ predicate, part.Mentions predicate → predicate = newName count ∨ whole.Mentions predicate := by
    rintro predicate (isEffect | ⟨condition, member, isCondition⟩)
    · exact Or.inl (isEffect.symm.trans isNew)
    · exact Or.inr (Or.inr ⟨condition, (folds.wholeConditions condition).mpr (Or.inl member), isCondition⟩)
  have foldedMentions : ∀ predicate, folded.Mentions predicate →
      predicate = newName count ∨ whole.Mentions predicate := by
    rintro predicate (isEffect | ⟨condition, member, isCondition⟩)
    · exact Or.inr (Or.inl (folds.effect ▸ isEffect))
    · cases (folds.foldedConditions condition).mp member with
      | inl isPart =>
        subst isPart
        exact Or.inl (isCondition.symm.trans isNew)
      | inr isOther =>
        exact Or.inr (Or.inr ⟨condition, (folds.wholeConditions condition).mpr (Or.inr isOther), isCondition⟩)
  constructor
  · exact Nat.le_succ count
  · intro rule isRule predicate mentions
    have isOld : predicate = newName count ∨ whole.Mentions predicate := by
      rcases isRule with rfl | rfl
      · exact partMentions predicate mentions
      · exact foldedMentions predicate mentions
    refine isOld.symm.imp (fun mentionsIt => ⟨whole, rfl, mentionsIt⟩) fun same => ?_
    exact ⟨count, le_rfl, Nat.lt_succ_self count, same⟩
  · intro facts context isFresh atom isUnused
    have newToFacts : ∀ fact ∈ facts, fact.predicate ≠ part.effect.predicate := by
      intro fact isFact
      rw [isNew]
      exact isFresh.facts fact isFact count le_rfl
    have newToRules : ∀ other ∈ insert whole context, ¬ other.Mentions part.effect.predicate := by
      intro other isOther mentions
      rw [isNew] at mentions
      exact isFresh.rules other isOther _ mentions count le_rfl rfl
    have old : atom.predicate ≠ part.effect.predicate := by
      rw [isNew]
      exact isUnused count le_rfl
    have derives : LeastModel facts (insert whole context) atom ↔ LeastModel facts (insert part (insert folded context)) atom :=
      folds.derives_iff newToFacts newToRules old
    rwa [Set.singleton_union, Set.insert_union, Set.singleton_union]
  · intro wholeKeeps
    obtain ⟨partKeeps, foldedKeeps⟩ := keepsShared (wholeKeeps whole rfl)
    rintro rule (rfl | rfl)
    · exact partKeeps
    · exact foldedKeeps
  · intro arity sized isUnused
    have wholeSized := sized whole rfl
    -- The arity of the new predicate is the number of arguments of the part.
    let arityWithPart := Function.update arity (newName count) part.effect.args.length
    have old : ∀ {predicate}, Unused newName count predicate → arityWithPart predicate = arity predicate := fun unused =>
      Function.update_of_ne (unused count le_rfl) _ _
    have partSized : part.effect.args.length = arityWithPart part.effect.predicate := by
      rw [isNew]
      simp [arityWithPart]
    have ofWhole : ∀ condition ∈ whole.conditions, condition.args.length = arityWithPart condition.predicate := by
      intro condition member
      rw [old (isUnused whole rfl _ (Or.inr ⟨condition, member, rfl⟩))]
      exact wholeSized.conditions condition member
    refine ⟨arityWithPart, fun _ => old, ?_⟩
    rintro rule (rfl | rfl)
    · exact ⟨partSized, fun condition member => ofWhole condition ((folds.wholeConditions condition).mpr (Or.inl member))⟩
    · constructor
      · rw [folds.effect, old (isUnused whole rfl _ (Or.inl rfl))]
        exact wholeSized.effect
      · intro condition member
        cases (folds.foldedConditions condition).mp member with
        | inl isPart =>
          subst isPart
          exact partSized
        | inr isOther => exact ofWhole condition ((folds.wholeConditions condition).mpr (Or.inr isOther))

/-- Only the set of the conditions matters. -/
theorem reorder {conditions reordered : List (SymbolicAtom Pred Var Obj)}
    {effect : SymbolicAtom Pred Var Obj} (same : ∀ condition, condition ∈ conditions ↔ condition ∈ reordered)
    (keepsShared : KeepsShared ⟨conditions, effect⟩ → KeepsShared ⟨reordered, effect⟩) :
    Rewrites newName {⟨conditions, effect⟩} count {⟨reordered, effect⟩} count where
  mono := le_rfl
  mentions := by
    rintro rule rfl predicate (isEffect | ⟨condition, member, isCondition⟩)
    · exact Or.inl ⟨_, rfl, Or.inl isEffect⟩
    · exact Or.inl ⟨_, rfl, Or.inr ⟨condition, (same condition).mpr member, isCondition⟩⟩
  preserves := by
    intro facts context _ atom _
    constructor
    · refine LeastModel.mono (fun _ => .fact) ?_
      rintro other (rfl | isContext) valuation derived
      · exact LeastModel.rule (Set.mem_union_left context (Set.mem_singleton (⟨reordered, effect⟩ : DatalogRule _ _ _)))
          valuation fun condition member => derived condition ((same condition).mpr member)
      · exact LeastModel.rule (Set.mem_union_right _ isContext) valuation derived
    · refine LeastModel.mono (fun _ => .fact) ?_
      rintro other (rfl | isContext) valuation derived
      · exact LeastModel.rule (Set.mem_union_left context (Set.mem_singleton (⟨conditions, effect⟩ : DatalogRule _ _ _)))
          valuation fun condition member => derived condition ((same condition).mp member)
      · exact LeastModel.rule (Set.mem_union_right _ isContext) valuation derived
  keepsShared := by
    rintro wholeKeeps rule rfl
    exact keepsShared (wholeKeeps _ rfl)
  sized := by
    intro arity sized _
    have wholeSized := sized _ rfl
    refine ⟨arity, fun _ _ => rfl, ?_⟩
    rintro rule rfl
    exact ⟨wholeSized.effect, fun condition member => wholeSized.conditions condition ((same condition).mpr member)⟩

end Rewrites

/-! ## Splitting -/

/-- The rules become rules in normal form that pass the checks of the model computation. -/
structure Splits (newName : ℕ → Pred) (rules : Set (DatalogRule Pred Var Obj)) (count : ℕ)
    (typedRules : List (TypedRule Pred Var Obj)) (nextCount : ℕ) : Prop where
  rewrites : Rewrites newName rules count (ruleSet typedRules) nextCount
  normal : ∀ typed ∈ typedRules, NormalRule typed.rule
  converts : ∀ typed ∈ typedRules, (convertRule typed).isSome = true

namespace Splits

variable {newName : ℕ → Pred} {rules rewritten others : Set (DatalogRule Pred Var Obj)}
  {count nextCount lastCount : ℕ} {typedRules otherTypedRules : List (TypedRule Pred Var Obj)}

/-- A rule that need not be split. -/
theorem single {typed : TypedRule Pred Var Obj} (normal : NormalRule typed.rule)
    (converts : (convertRule typed).isSome = true) : Splits newName {typed.rule} count [typed] count where
  rewrites := by
    rw [ruleSet_cons, ruleSet_nil, insert_empty_eq]
    exact Rewrites.refl _ le_rfl
  normal := by simpa using normal
  converts := by simpa using converts

theorem nil (count : ℕ) : Splits newName (∅ : Set (DatalogRule Pred Var Obj)) count [] count where
  rewrites := by
    rw [ruleSet_nil]
    exact Rewrites.refl _ le_rfl
  normal := by simp
  converts := by simp

theorem of_rewrites (rewrites : Rewrites newName rules count rewritten nextCount) (injective : Function.Injective newName)
    (splits : Splits newName rewritten nextCount typedRules lastCount) :
    Splits newName rules count typedRules lastCount :=
  ⟨rewrites.trans injective splits.rewrites, splits.normal, splits.converts⟩

theorem append (injective : Function.Injective newName) (first : Splits newName rules count typedRules nextCount)
    (second : Splits newName others nextCount otherTypedRules lastCount) :
    Splits newName (rules ∪ others) count (typedRules ++ otherTypedRules) lastCount where
  rewrites := by
    rw [ruleSet_append]
    refine (first.rewrites.frame others).trans injective ?_
    rw [Set.union_comm _ others, Set.union_comm (ruleSet typedRules)]
    exact second.rewrites.frame _
  normal := List.forall_mem_append.mpr ⟨first.normal, second.normal⟩
  converts := List.forall_mem_append.mpr ⟨first.converts, second.converts⟩

/-- Names may be left out. -/
theorem weaken (splits : Splits newName rules count typedRules nextCount) (injective : Function.Injective newName)
    (le : nextCount ≤ lastCount) : Splits newName rules count typedRules lastCount :=
  ⟨splits.rewrites.trans injective (Rewrites.refl _ le), splits.normal, splits.converts⟩

/-- A part of the conditions becomes a rule of its own before the rest is split. -/
theorem fold (others : List (SymbolicAtom Pred Var Obj)) (injective : Function.Injective newName)
    {whole folded : DatalogRule Pred Var Obj} {part : TypedRule Pred Var Obj}
    (folds : Folds whole part.rule folded others) (isNew : part.rule.effect.predicate = newName count)
    (partNormal : NormalRule part.rule) (partConverts : (convertRule part).isSome = true)
    (keepsShared : KeepsShared whole → KeepsShared part.rule ∧ KeepsShared folded)
    (splits : Splits newName {folded} (count + 1) typedRules nextCount) :
    Splits newName {whole} count (part :: typedRules) nextCount := by
  refine Splits.of_rewrites (Rewrites.fold folds isNew keepsShared) injective ?_
  exact (single partNormal partConverts).append injective splits

/-- The order of the conditions does not matter. -/
theorem perm {conditions reordered : List (SymbolicAtom Pred Var Obj)}
    {effect : SymbolicAtom Pred Var Obj} (injective : Function.Injective newName)
    (same : conditions.Perm reordered) (splits : Splits newName {⟨reordered, effect⟩} count typedRules nextCount) :
    Splits newName {⟨conditions, effect⟩} count typedRules nextCount := by
  exact Splits.of_rewrites (Rewrites.reorder (fun _ => same.mem_iff) (KeepsShared.perm same)) injective splits

end Splits

end CutPlan.Translate
