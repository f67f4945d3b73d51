import CutPlan.Translate.PrologProgram

/-! # The normal form of the grounding program

Every step of the normalization keeps the least model over the predicates of the program.  Free variables of effects
range over the objects of the program; the equality conditions of renamed variables hold for equal objects only.
-/

set_option linter.unusedSectionVars false

namespace CutPlan.Translate.PrologProgram

open CutPlan.Lib

variable {Pred Var Obj : Type} [DecidableEq Pred] [DecidableEq Var] [DecidableEq Obj]
  (names : ReservedNames Pred Var) (le : Term Var Obj → Term Var Obj → Bool)
  {program : PrologProgram Pred Var Obj} {rule : DatalogRule Pred Var Obj}
  {facts : Set (Atom Pred Obj)} {atom : Atom Pred Obj}

def factSet (program : PrologProgram Pred Var Obj) : Set (Atom Pred Obj) :=
  {fact | fact ∈ program.facts}

def rulesOf (program : PrologProgram Pred Var Obj) : Set (DatalogRule Pred Var Obj) :=
  {rule | rule ∈ program.rules}

/-! ## Free variables of effects -/

theorem mem_freeVariables {name : Var} :
    name ∈ freeVariables rule ↔ name ∈ variablesOf rule.effect ∧ ¬ OccursIn name rule.conditions := by
  simp [freeVariables, OccursIn]

theorem mem_conditions_addObjectConditions {condition : SymbolicAtom Pred Var Obj} :
    condition ∈ (addObjectConditions names le rule).conditions ↔
      condition ∈ rule.conditions ∨ ∃ name ∈ freeVariables rule, condition = ⟨names.objectPredicate, [.var name]⟩ := by
  simp only [addObjectConditions, List.mem_append, List.mem_map, List.mem_mergeSort, exists_exists_and_eq_and]
  simp only [eq_comm]

theorem bound_addObjectConditions {name : Var}
    (inEffect : name ∈ variablesOf (addObjectConditions names le rule).effect) :
    OccursIn name (addObjectConditions names le rule).conditions := by
  by_cases bound : OccursIn name rule.conditions
  · obtain ⟨condition, isCondition, occurs⟩ := bound
    exact ⟨condition, (mem_conditions_addObjectConditions names le).mpr (Or.inl isCondition), occurs⟩
  · refine ⟨⟨names.objectPredicate, [.var name]⟩, (mem_conditions_addObjectConditions names le).mpr (Or.inr ?_), by simp⟩
    exact ⟨name, mem_freeVariables.mpr ⟨inEffect, bound⟩, rfl⟩

/-- The facts over the new predicate are there when a rule needs them. -/
theorem mem_facts_removeFreeEffectVariables :
    atom ∈ (program.removeFreeEffectVariables names le).facts ↔ atom ∈ program.facts ∨
      (∃ rule ∈ program.rules, freeVariables rule ≠ []) ∧ ∃ obj ∈ program.objects, atom = ⟨names.objectPredicate, [obj]⟩ := by
  simp only [removeFreeEffectVariables]
  by_cases needed : ∃ rule ∈ program.rules, freeVariables rule ≠ []
  · have isAny : (program.rules.any fun rule => !(freeVariables rule).isEmpty) = true := by simpa using needed
    rw [if_pos isAny]
    simp only [List.mem_append, List.mem_map, needed, true_and, eq_comm]
  · have notAny : ¬ (program.rules.any fun rule => !(freeVariables rule).isEmpty) = true := by simpa using needed
    rw [if_neg notAny]
    simp [needed]

/-- The predicate of the objects is not one of the program. -/
theorem removeFreeEffectVariables_preserves
    (newToFacts : ∀ fact ∈ program.facts, fact.predicate ≠ names.objectPredicate)
    (newToRules : ∀ rule ∈ program.rules, ¬ rule.Mentions names.objectPredicate)
    (isOld : atom.predicate ≠ names.objectPredicate) :
    LeastModelWithin {obj | obj ∈ program.objects} program.factSet program.rulesOf atom ↔
      LeastModel (program.removeFreeEffectVariables names le).factSet
        (program.removeFreeEffectVariables names le).rulesOf atom := by
  have isFact : ∀ {fact}, fact ∈ (program.removeFreeEffectVariables names le).factSet ↔ _ :=
    fun {_} => mem_facts_removeFreeEffectVariables names le
  have isRule : ∀ {rule'}, rule' ∈ (program.removeFreeEffectVariables names le).rulesOf ↔
      ∃ rule ∈ program.rules, addObjectConditions names le rule = rule' := fun {_} => List.mem_map
  constructor
  · intro derived
    refine derived.least {atom | LeastModel _ _ atom} (fun fact member => .fact (isFact.mpr (Or.inl member))) ?_
    intro rule member valuation within conditions
    refine LeastModel.rule (isRule.mpr ⟨rule, member, rfl⟩) valuation fun condition isCondition => ?_
    rcases (mem_conditions_addObjectConditions names le).mp isCondition with isOriginal | ⟨name, isFree, rfl⟩
    · exact conditions condition isOriginal
    · have ⟨inEffect, unbound⟩ := mem_freeVariables.mp isFree
      refine .fact (isFact.mpr (Or.inr ⟨⟨rule, member, List.ne_nil_of_mem isFree⟩, valuation name, ?_, rfl⟩))
      exact within name (mem_variablesOf.mp inEffect) unbound
  · intro derived
    -- The atoms over the new predicate are the facts about the objects.
    have both : atom ∈ {atom : Atom Pred Obj |
        (atom.predicate = names.objectPredicate → ∃ obj ∈ program.objects, atom.args = [obj]) ∧
          (atom.predicate ≠ names.objectPredicate →
            LeastModelWithin {obj | obj ∈ program.objects} program.factSet program.rulesOf atom)} := by
      apply derived.least
      · intro fact member
        rcases isFact.mp member with isOriginal | ⟨_, obj, isObject, rfl⟩
        · exact ⟨fun isNew => absurd isNew (newToFacts fact isOriginal), fun _ => .fact isOriginal⟩
        · exact ⟨fun _ => ⟨obj, isObject, rfl⟩, fun isOld => absurd rfl isOld⟩
      · intro rule' member valuation conditions
        obtain ⟨rule, isRule, rfl⟩ := isRule.mp member
        refine ⟨fun isNew => absurd (Or.inl isNew) (newToRules rule isRule), fun _ => ?_⟩
        change LeastModelWithin _ _ _ (rule.effect.ground valuation)
        refine LeastModelWithin.rule (show rule ∈ program.rulesOf from isRule) valuation (fun name inEffect unbound => ?_) fun condition isCondition => ?_
        · have isFree := mem_freeVariables.mpr ⟨mem_variablesOf.mpr inEffect, unbound⟩
          have isObject := conditions ⟨names.objectPredicate, [.var name]⟩
            ((mem_conditions_addObjectConditions names le).mpr (Or.inr ⟨name, isFree, rfl⟩))
          obtain ⟨obj, isObject, sameArgs⟩ := isObject.1 rfl
          simp only [Atom.ground, List.map_cons, List.map_nil, Term.value_var, List.cons.injEq, and_true] at sameArgs
          exact sameArgs ▸ isObject
        · have inMeaning := conditions condition ((mem_conditions_addObjectConditions names le).mpr (Or.inl isCondition))
          exact inMeaning.2 fun isNew => newToRules rule isRule (Or.inr ⟨condition, isCondition, isNew⟩)
    exact both.2 isOld

/-! ## Repeated variables -/

/-- No name that the renaming gives. -/
def Plain (name : Var) : Prop := ∀ original number, name ≠ names.renamed original number

/-- The variables of a list of arguments. -/
abbrev variablesIn (args : List (Term Var Obj)) : List Var :=
  variablesOf (⟨(), args⟩ : SymbolicAtom Unit Var Obj)

/-- What the renaming of arguments does from a number of new conditions on. -/
structure RenamedArgs (used : List Var) (args renamedArgs : List (Term Var Obj)) (start : ℕ)
    (added : List (SymbolicAtom Pred Var Obj)) : Prop where
  length : renamedArgs.length = args.length
  equalities : ∀ (index : ℕ) condition, added[index]? = some condition →
    ∃ name, .var name ∈ args ∧ condition = equalityCondition names name (names.renamed name (start + index))
  kept : ∀ name, .var name ∈ args → name ∈ used ∨ .var name ∈ renamedArgs
  origin : ∀ name, .var name ∈ renamedArgs → .var name ∈ args ∧ name ∉ used ∨
    ∃ (index : ℕ) (original : Var), name = names.renamed original (start + index) ∧
      added[index]? = some (equalityCondition names original name)
  distinct : (∀ name, .var name ∈ args → Plain names name) → (variablesIn renamedArgs).Nodup
  values : ∀ valuation : Valuation Var Obj,
    (∀ name newVar, equalityCondition names name newVar ∈ added → valuation name = valuation newVar) →
      renamedArgs.map (Term.value valuation) = args.map (Term.value valuation)
  unchanged : (variablesIn args).Nodup → (∀ name, .var name ∈ args → name ∉ used) → renamedArgs = args ∧ added = []

theorem equalityCondition_inj {name newVar name' newVar' : Var}
    (same : (equalityCondition names name newVar : SymbolicAtom Pred Var Obj) =
      equalityCondition names name' newVar') : name = name' ∧ newVar = newVar' := by
  simpa [equalityCondition] using same

theorem RenamedArgs.rename {used : List Var} {args renamedArgs : List (Term Var Obj)} {start : ℕ}
    {added : List (SymbolicAtom Pred Var Obj)} {name : Var} (isUsed : name ∈ used)
    (rest : RenamedArgs names used args renamedArgs (start + 1) added) :
    RenamedArgs names used (.var name :: args) (.var (names.renamed name start) :: renamedArgs) start
      (equalityCondition names name (names.renamed name start) :: added) where
  length := by simp [rest.length]
  equalities := by
    intro index condition isAdded
    cases index with
    | zero =>
      simp only [List.getElem?_cons_zero, Option.some.injEq] at isAdded
      exact ⟨name, List.mem_cons_self, isAdded.symm⟩
    | succ index =>
      rw [List.getElem?_cons_succ] at isAdded
      obtain ⟨original, occurs, isEquality⟩ := rest.equalities index condition isAdded
      refine ⟨original, List.mem_cons_of_mem _ occurs, ?_⟩
      rw [isEquality, Nat.add_assoc, Nat.add_comm 1]
  kept := by
    intro kept occurs
    rw [List.mem_cons] at occurs ⊢
    rcases occurs with isFirst | isLater
    · cases isFirst
      exact Or.inl isUsed
    · exact (rest.kept kept isLater).imp_right Or.inr
  origin := by
    intro kept occurs
    rw [List.mem_cons] at occurs
    rcases occurs with isFirst | isLater
    · cases isFirst
      exact Or.inr ⟨0, name, rfl, rfl⟩
    · rcases rest.origin kept isLater with ⟨isArg, unused⟩ | ⟨index, original, isRenamed, isAdded⟩
      · exact Or.inl ⟨List.mem_cons_of_mem _ isArg, unused⟩
      · refine Or.inr ⟨index + 1, original, ?_, by rwa [List.getElem?_cons_succ]⟩
        rw [isRenamed, Nat.add_assoc, Nat.add_comm 1]
  distinct := by
    intro plain
    rw [variablesIn, variablesOf_cons, List.nodup_cons, mem_variablesOf]
    refine ⟨fun occurs => ?_, rest.distinct fun kept occurs => plain kept (List.mem_cons_of_mem _ occurs)⟩
    rcases rest.origin _ occurs with ⟨isArg, _⟩ | ⟨index, original, isRenamed, _⟩
    · exact plain _ (List.mem_cons_of_mem _ isArg) name start rfl
    · have sameNumber := (names.renamed_injective isRenamed).2
      omega
  values := by
    intro valuation respects
    rw [List.map_cons, List.map_cons, rest.values valuation fun kept newVar isAdded =>
      respects kept newVar (List.mem_cons_of_mem _ isAdded)]
    rw [Term.value_var, Term.value_var, respects name _ List.mem_cons_self]
  unchanged := fun _ unused => absurd isUsed (unused name List.mem_cons_self)

theorem RenamedArgs.keep {used : List Var} {args renamedArgs : List (Term Var Obj)} {start : ℕ}
    {added : List (SymbolicAtom Pred Var Obj)} {name : Var} (unused : name ∉ used)
    (rest : RenamedArgs names (name :: used) args renamedArgs start added) :
    RenamedArgs names used (.var name :: args) (.var name :: renamedArgs) start added where
  length := by simp [rest.length]
  equalities := by
    intro index condition isAdded
    obtain ⟨original, occurs, isEquality⟩ := rest.equalities index condition isAdded
    exact ⟨original, List.mem_cons_of_mem _ occurs, isEquality⟩
  kept := by
    intro kept occurs
    rw [List.mem_cons] at occurs ⊢
    rcases occurs with isFirst | isLater
    · exact Or.inr (Or.inl isFirst)
    · rcases rest.kept kept isLater with isUsed | isKept
      · rcases List.mem_cons.mp isUsed with rfl | isUsed
        · exact Or.inr (Or.inl rfl)
        · exact Or.inl isUsed
      · exact Or.inr (Or.inr isKept)
  origin := by
    intro kept occurs
    rw [List.mem_cons] at occurs
    rcases occurs with isFirst | isLater
    · cases isFirst
      exact Or.inl ⟨List.mem_cons_self, unused⟩
    · refine (rest.origin kept isLater).imp_left fun ⟨isArg, notUsed⟩ => ⟨List.mem_cons_of_mem _ isArg, fun isUsed => ?_⟩
      exact notUsed (List.mem_cons_of_mem _ isUsed)
  distinct := by
    intro plain
    rw [variablesIn, variablesOf_cons, List.nodup_cons, mem_variablesOf]
    refine ⟨fun occurs => ?_, rest.distinct fun kept occurs => plain kept (List.mem_cons_of_mem _ occurs)⟩
    rcases rest.origin _ occurs with ⟨_, notUsed⟩ | ⟨index, original, isRenamed, _⟩
    · exact notUsed List.mem_cons_self
    · exact plain name List.mem_cons_self original _ isRenamed
  values := by
    intro valuation respects
    rw [List.map_cons, List.map_cons, rest.values valuation respects]
  unchanged := by
    intro distinct notUsed
    rw [variablesIn, variablesOf_cons, List.nodup_cons, mem_variablesOf] at distinct
    obtain ⟨sameArgs, noneAdded⟩ := rest.unchanged distinct.2 fun other occurs isUsed => by
      rcases List.mem_cons.mp isUsed with rfl | isUsed
      · exact distinct.1 occurs
      · exact notUsed other (List.mem_cons_of_mem _ occurs) isUsed
    exact ⟨by rw [sameArgs], noneAdded⟩

theorem RenamedArgs.object {used : List Var} {args renamedArgs : List (Term Var Obj)} {start : ℕ}
    {added : List (SymbolicAtom Pred Var Obj)} (known : Obj)
    (rest : RenamedArgs names used args renamedArgs start added) :
    RenamedArgs names used (.object known :: args) (.object known :: renamedArgs) start added where
  length := by simp [rest.length]
  equalities := by simpa using rest.equalities
  kept := by simpa using rest.kept
  origin := by simpa using rest.origin
  distinct := by simpa [variablesOf_cons] using rest.distinct
  values := by simpa using rest.values
  unchanged := by simpa [variablesOf_cons] using rest.unchanged

theorem renameArgs_spec (args : List (Term Var Obj)) (used : List Var)
    (newConditions : List (SymbolicAtom Pred Var Obj)) :
    ∃ added, (renameArgs names used args newConditions).2 = newConditions ++ added ∧
      RenamedArgs names used args (renameArgs names used args newConditions).1 newConditions.length added := by
  induction args generalizing used newConditions with
  | nil => exact ⟨[], by simp [renameArgs], by constructor <;> simp [renameArgs, variablesIn, variablesOf]⟩
  | cons argument args inductionHypothesis =>
    cases argument with
    | object known =>
      obtain ⟨added, isNew, rest⟩ := inductionHypothesis used newConditions
      exact ⟨added, isNew, rest.object names known⟩
    | var name =>
      simp only [renameArgs]
      by_cases isUsed : name ∈ used
      · rw [if_pos isUsed]
        obtain ⟨added, isNew, rest⟩ := inductionHypothesis used
          (newConditions ++ [equalityCondition names name (names.renamed name newConditions.length)])
        rw [List.length_append, List.length_singleton] at rest
        exact ⟨_, by rw [isNew, List.append_assoc, List.singleton_append], rest.rename names isUsed⟩
      · rw [if_neg isUsed]
        obtain ⟨added, isNew, rest⟩ := inductionHypothesis (name :: used) newConditions
        exact ⟨added, isNew, rest.keep names isUsed⟩

/-- An atom whose repeated variables have been renamed, with the conditions for all renamed variables of the rule. -/
structure Renames (extra : List (SymbolicAtom Pred Var Obj))
    (atom renamedAtom : SymbolicAtom Pred Var Obj) : Prop where
  predicate : renamedAtom.predicate = atom.predicate
  length : renamedAtom.args.length = atom.args.length
  kept : ∀ name ∈ variablesOf atom, name ∈ variablesOf renamedAtom
  origin : ∀ name ∈ variablesOf renamedAtom, name ∈ variablesOf atom ∨
    ∃ original, equalityCondition names original name ∈ extra
  distinct : (∀ name ∈ variablesOf atom, Plain names name) → (variablesOf renamedAtom).Nodup
  values : ∀ valuation : Valuation Var Obj,
    (∀ name newVar, equalityCondition names name newVar ∈ extra → valuation name = valuation newVar) →
      renamedAtom.ground valuation = atom.ground valuation

/-- The conditions that are added for atoms, from a number of them on. -/
structure AddedFor (atoms : List (SymbolicAtom Pred Var Obj)) (start : ℕ)
    (added : List (SymbolicAtom Pred Var Obj)) : Prop where
  equalities : ∀ (index : ℕ) condition, added[index]? = some condition →
    ∃ name, OccursIn name atoms ∧ condition = equalityCondition names name (names.renamed name (start + index))
  none : (∀ atom ∈ atoms, (variablesOf atom).Nodup) → added = []

theorem renameAtom_spec (atom : SymbolicAtom Pred Var Obj)
    (newConditions : List (SymbolicAtom Pred Var Obj)) :
    ∃ added, (renameAtom names atom newConditions).2 = newConditions ++ added ∧
      AddedFor names [atom] newConditions.length added ∧
      ((variablesOf atom).Nodup → (renameAtom names atom newConditions).1 = atom) ∧
        ∀ extra, added ⊆ extra → Renames names extra atom (renameAtom names atom newConditions).1 := by
  obtain ⟨added, isNew, renamedArgs⟩ := renameArgs_spec names atom.args [] newConditions
  have isAtom : (renameAtom names atom newConditions).1 =
      ⟨atom.predicate, (renameArgs names [] atom.args newConditions).1⟩ := rfl
  rw [isAtom]
  generalize (renameArgs names [] atom.args newConditions).1 = args at renamedArgs
  refine ⟨added, isNew, ⟨?_, ?_⟩, ?_, ?_⟩
  · intro index condition isAdded
    obtain ⟨name, occurs, isEquality⟩ := renamedArgs.equalities index condition isAdded
    exact ⟨name, by simpa [OccursIn] using occurs, isEquality⟩
  · intro distinct
    exact (renamedArgs.unchanged (distinct atom List.mem_cons_self) (by simp)).2
  · intro distinct
    rw [(renamedArgs.unchanged distinct (by simp)).1]
  · intro extra subset
    refine ⟨rfl, renamedArgs.length, ?_, ?_, ?_, ?_⟩
    · intro name occurs
      rw [mem_variablesOf] at occurs ⊢
      exact (renamedArgs.kept name occurs).resolve_left (by simp)
    · intro name occurs
      rw [mem_variablesOf] at occurs ⊢
      rcases renamedArgs.origin name occurs with ⟨isArg, _⟩ | ⟨index, original, _, isAdded⟩
      · exact Or.inl isArg
      · exact Or.inr ⟨original, subset (List.mem_of_getElem? isAdded)⟩
    · intro plain
      exact renamedArgs.distinct fun name occurs => plain name (mem_variablesOf.mpr occurs)
    · intro valuation respects
      have sameArgs := renamedArgs.values valuation fun name newVar isAdded => respects name newVar (subset isAdded)
      simp only [Atom.ground, sameArgs]

theorem AddedFor.cons {atom : SymbolicAtom Pred Var Obj} {atoms : List (SymbolicAtom Pred Var Obj)}
    {start : ℕ} {first rest : List (SymbolicAtom Pred Var Obj)} (forFirst : AddedFor names [atom] start first)
    (forRest : AddedFor names atoms (start + first.length) rest) : AddedFor names (atom :: atoms) start (first ++ rest) where
  equalities := by
    intro index condition isAdded
    rw [List.getElem?_append] at isAdded
    split at isAdded
    · obtain ⟨name, occurs, isEquality⟩ := forFirst.equalities index condition isAdded
      rw [occursIn_cons, or_iff_left not_occursIn_nil] at occurs
      exact ⟨name, occursIn_cons.mpr (Or.inl occurs), isEquality⟩
    · obtain ⟨name, occurs, isEquality⟩ := forRest.equalities _ condition isAdded
      refine ⟨name, occursIn_cons.mpr (Or.inr occurs), ?_⟩
      rw [isEquality, show start + first.length + (index - first.length) = start + index by omega]
  none := by
    intro distinct
    rw [List.forall_mem_cons] at distinct
    rw [forFirst.none (by simpa using distinct.1), forRest.none distinct.2, List.append_nil]

theorem renameConditions_spec (conditions newConditions : List (SymbolicAtom Pred Var Obj)) :
    ∃ added, (renameConditions names conditions newConditions).2 = newConditions ++ added ∧
      AddedFor names conditions newConditions.length added ∧
      ((∀ condition ∈ conditions, (variablesOf condition).Nodup) →
        (renameConditions names conditions newConditions).1 = conditions) ∧
        ∀ extra, added ⊆ extra →
          List.Forall₂ (Renames names extra) conditions (renameConditions names conditions newConditions).1 := by
  induction conditions generalizing newConditions with
  | nil => exact ⟨[], by simp [renameConditions], ⟨by simp, by simp⟩, by simp [renameConditions], by simp [renameConditions]⟩
  | cons condition conditions inductionHypothesis =>
    obtain ⟨first, isNewFirst, forFirst, unchangedFirst, renamesFirst⟩ := renameAtom_spec names condition newConditions
    obtain ⟨rest, isNewRest, forRest, unchangedRest, renamesRest⟩ :=
      inductionHypothesis (renameAtom names condition newConditions).2
    rw [isNewFirst, List.length_append] at forRest
    refine ⟨first ++ rest, ?_, forFirst.cons names forRest, ?_, ?_⟩
    · simp only [renameConditions]
      rw [isNewRest, isNewFirst, List.append_assoc]
    · intro distinct
      rw [List.forall_mem_cons] at distinct
      simp only [renameConditions]
      rw [unchangedFirst distinct.1, unchangedRest distinct.2]
    · intro extra subset
      exact .cons (renamesFirst extra fun _ member => subset (List.mem_append_left _ member))
        (renamesRest extra fun _ member => subset (List.mem_append_right _ member))

/-- A rule with renamed variables, and the equality conditions that it gets. -/
structure RenamedRule (rule renamedRule : DatalogRule Pred Var Obj)
    (conditions extra : List (SymbolicAtom Pred Var Obj)) : Prop where
  isConditions : renamedRule.conditions = conditions ++ extra
  effect : Renames names extra rule.effect renamedRule.effect
  renames : List.Forall₂ (Renames names extra) rule.conditions conditions
  added : AddedFor names (rule.effect :: rule.conditions) 0 extra
  unchanged : (∀ condition ∈ rule.conditions, (variablesOf condition).Nodup) →
    conditions = rule.conditions ∧ AddedFor names [rule.effect] 0 extra

theorem exists_renamedRule (rule : DatalogRule Pred Var Obj) :
    ∃ conditions extra, RenamedRule names rule (renameDuplicateVariables names rule) conditions extra := by
  obtain ⟨forEffect, isNewEffect, addedEffect, _, renamesEffect⟩ := renameAtom_spec names rule.effect []
  obtain ⟨forConditions, isNew, addedConditions, unchanged, renamesConditions⟩ :=
    renameConditions_spec names rule.conditions (renameAtom names rule.effect []).2
  rw [List.nil_append] at isNewEffect
  rw [isNewEffect] at addedConditions isNew unchanged renamesConditions
  refine ⟨(renameConditions names rule.conditions forEffect).1, forEffect ++ forConditions, ?_, ?_, ?_, ?_, ?_⟩
  · simp only [renameDuplicateVariables, isNewEffect, isNew]
  · exact renamesEffect _ fun _ member => List.mem_append_left _ member
  · exact renamesConditions _ fun _ member => List.mem_append_right _ member
  · exact addedEffect.cons names (by simpa using addedConditions)
  · intro distinct
    refine ⟨unchanged distinct, ?_⟩
    rw [addedConditions.none distinct, List.append_nil]
    simpa using addedEffect

namespace RenamedRule

variable {names} {renamedRule : DatalogRule Pred Var Obj}
  {conditions extra : List (SymbolicAtom Pred Var Obj)}

theorem mem_conditions (renamed : RenamedRule names rule renamedRule conditions extra)
    {condition : SymbolicAtom Pred Var Obj} :
    condition ∈ renamedRule.conditions ↔ condition ∈ conditions ∨ condition ∈ extra := by
  rw [renamed.isConditions, List.mem_append]

/-- Values that satisfy the equality conditions make the same instance. -/
theorem sameConditions (renamed : RenamedRule names rule renamedRule conditions extra)
    {valuation : Valuation Var Obj}
    (respects : ∀ name newVar, equalityCondition names name newVar ∈ extra → valuation name = valuation newVar) :
    rule.conditions.map (Atom.ground valuation) = conditions.map (Atom.ground valuation) := by
  have each := renamed.renames.imp fun condition renamedCondition (renames : Renames names extra _ _) =>
    (renames.values valuation respects).symm
  rw [← List.forall₂_eq_eq_eq, List.forall₂_map_left_iff, List.forall₂_map_right_iff]
  exact each

end RenamedRule

section Extension

open Classical in
/-- New variables have the values of the variables they stand for. -/
noncomputable def extend (valuation : Valuation Var Obj) : Valuation Var Obj := fun name =>
  if renamed : ∃ original number, name = names.renamed original number then valuation renamed.choose else valuation name

theorem extend_renamed (valuation : Valuation Var Obj) (original : Var) (number : ℕ) :
    extend names valuation (names.renamed original number) = valuation original := by
  have renamed : ∃ original' number', names.renamed original number = names.renamed original' number' :=
    ⟨original, number, rfl⟩
  obtain ⟨_, same⟩ := renamed.choose_spec
  rw [extend, dif_pos renamed, ← (names.renamed_injective same).1]

theorem extend_plain (valuation : Valuation Var Obj) {name : Var} (plain : Plain names name) :
    extend names valuation name = valuation name := by
  rw [extend, dif_neg]
  rintro ⟨original, number, isRenamed⟩
  exact plain original number isRenamed

end Extension

/-- What the program has to say about equality: each object of the program is equal to itself only. -/
structure Equalities (program : PrologProgram Pred Var Obj) (objects : Set Obj) : Prop where
  facts : ∀ args, ⟨names.equality, args⟩ ∈ program.facts ↔ ∃ obj ∈ objects, args = [obj, obj]
  noRule : ∀ rule ∈ program.rules, rule.effect.predicate ≠ names.equality
  factObjects : ∀ fact ∈ program.facts, ∀ obj ∈ fact.args, obj ∈ objects
  ruleObjects : ∀ rule ∈ program.rules, ∀ obj, .object obj ∈ rule.effect.args → obj ∈ objects

theorem splitDuplicateArguments_preserves {objects : Set Obj} (equalities : Equalities names program objects)
    (plain : ∀ rule ∈ program.rules, ∀ name, OccursIn name (rule.effect :: rule.conditions) → Plain names name)
    (bound : ∀ rule ∈ program.rules, ∀ name ∈ variablesOf rule.effect, OccursIn name rule.conditions) :
    LeastModel program.factSet program.rulesOf atom ↔
      LeastModel (program.splitDuplicateArguments names).factSet (program.splitDuplicateArguments names).rulesOf atom := by
  have isRule : ∀ {rule'}, rule' ∈ (program.splitDuplicateArguments names).rulesOf ↔
      ∃ rule ∈ program.rules, renameDuplicateVariables names rule = rule' := fun {_} => List.mem_map
  constructor
  · intro derived
    have both : atom ∈ {atom : Atom Pred Obj | (∀ obj ∈ atom.args, obj ∈ objects) ∧
        LeastModel (program.splitDuplicateArguments names).factSet (program.splitDuplicateArguments names).rulesOf atom} := by
      apply derived.least
      · exact fun fact isFact => ⟨equalities.factObjects fact isFact, .fact isFact⟩
      · intro rule member valuation conditionsHold
        obtain ⟨conditions, extra, renamed⟩ := exists_renamedRule names rule
        have inConditions : ∀ name, OccursIn name rule.conditions → valuation name ∈ objects := by
          rintro name ⟨condition, isCondition, occurs⟩
          refine (conditionsHold condition isCondition).1 _ (List.mem_map.mpr ⟨.var name, occurs, rfl⟩)
        have inRule : ∀ name, OccursIn name (rule.effect :: rule.conditions) → valuation name ∈ objects := by
          intro name occurs
          rw [occursIn_cons, ← mem_variablesOf] at occurs
          exact inConditions name (occurs.elim (bound rule member name) id)
        have sameGround : ∀ atom ∈ rule.effect :: rule.conditions,
            atom.ground (extend names valuation) = atom.ground valuation := by
          intro atom isAtom
          apply Atom.ground_congr
          exact fun name occurs => extend_plain names valuation (plain rule member name ⟨atom, isAtom, occurs⟩)
        have respects : ∀ name newVar, equalityCondition names name newVar ∈ extra →
            extend names valuation name = extend names valuation newVar := by
          intro name newVar isExtra
          obtain ⟨index, isExtra⟩ := List.mem_iff_getElem?.mp isExtra
          obtain ⟨original, occurs, same⟩ := renamed.added.equalities index _ isExtra
          obtain ⟨rfl, rfl⟩ := equalityCondition_inj names same
          rw [extend_renamed, extend_plain names valuation (plain rule member name occurs)]
        have sameEffect := renamed.effect.values _ respects
        rw [sameGround rule.effect List.mem_cons_self] at sameEffect
        constructor
        · intro obj isArg
          obtain ⟨argument, inEffect, rfl⟩ := List.mem_map.mp isArg
          cases argument with
          | object known => exact equalities.ruleObjects rule member known inEffect
          | var name => exact inRule name (occursIn_cons.mpr (Or.inl inEffect))
        · rw [← sameEffect]
          refine LeastModel.rule (isRule.mpr ⟨rule, member, rfl⟩) _ fun condition isCondition => ?_
          cases renamed.mem_conditions.mp isCondition with
          | inl isOriginal =>
            have inGround := List.mem_map_of_mem (f := Atom.ground (extend names valuation)) isOriginal
            rw [← renamed.sameConditions respects] at inGround
            obtain ⟨original, isElement, sameAtom⟩ := List.mem_map.mp inGround
            rw [← sameAtom, sameGround original (List.mem_cons_of_mem _ isElement)]
            exact (conditionsHold original isElement).2
          | inr isExtra =>
            obtain ⟨index, isExtra⟩ := List.mem_iff_getElem?.mp isExtra
            obtain ⟨original, occurs, rfl⟩ := renamed.added.equalities index _ isExtra
            refine .fact ((equalities.facts _).mpr ⟨valuation original, inRule original occurs, ?_⟩)
            simp [equalityCondition, extend_renamed, extend_plain names valuation (plain rule member _ occurs)]
    exact both.2
  · intro derived
    refine derived.mono (fun fact isFact => .fact isFact) ?_
    intro rule' member valuation conditionsHold
    obtain ⟨rule, isRule, rfl⟩ := isRule.mp member
    obtain ⟨conditions, extra, renamed⟩ := exists_renamedRule names rule
    have respects : ∀ name newVar, equalityCondition names name newVar ∈ extra → valuation name = valuation newVar := by
      intro name newVar isExtra
      have isDerived := conditionsHold _ (renamed.mem_conditions.mpr (Or.inr isExtra))
      have isFact := isDerived.mem_facts_of_noRule fun other isOther => equalities.noRule other isOther
      obtain ⟨obj, _, sameArgs⟩ := (equalities.facts _).mp isFact
      simp only [equalityCondition, List.map_cons, List.map_nil, Term.value_var, List.cons.injEq, and_true] at sameArgs
      rw [sameArgs.1, sameArgs.2]
    rw [renamed.effect.values valuation respects]
    refine LeastModel.rule (show rule ∈ program.rulesOf from isRule) valuation fun condition isCondition => ?_
    have inGround := List.mem_map_of_mem (f := Atom.ground valuation) isCondition
    rw [renamed.sameConditions respects] at inGround
    obtain ⟨renamedCondition, isElement, sameAtom⟩ := List.mem_map.mp inGround
    rw [← sameAtom]
    exact conditionsHold renamedCondition (renamed.mem_conditions.mpr (Or.inl isElement))

/-! ## What the steps establish -/

/-- The normal form up to rules without conditions. -/
structure Tidy (rule : DatalogRule Pred Var Obj) : Prop where
  distinctEffect : (variablesOf rule.effect).Nodup
  distinctConditions : ∀ condition ∈ rule.conditions, (variablesOf condition).Nodup
  bound : ∀ name ∈ variablesOf rule.effect, OccursIn name rule.conditions

theorem Tidy.normal (tidy : Tidy rule) (nonempty : rule.conditions ≠ []) : NormalRule rule :=
  ⟨tidy.distinctEffect, tidy.distinctConditions, tidy.bound, nonempty⟩

/-- Conditions have distinct variables, and share only those of the effect. -/
structure Comparable (rule : DatalogRule Pred Var Obj) : Prop where
  distinct : ∀ condition ∈ rule.conditions, (variablesOf condition).Nodup
  keepsShared : KeepsShared rule

theorem comparable_addObjectConditions (comparable : Comparable rule) :
    Comparable (addObjectConditions names le rule) := by
  constructor
  · intro condition isCondition
    rcases (mem_conditions_addObjectConditions names le).mp isCondition with isOriginal | ⟨name, _, rfl⟩
    · exact comparable.distinct condition isOriginal
    · simp [variablesOf]
  · refine List.pairwise_append.mpr ⟨comparable.keepsShared, ?_, ?_⟩
    · refine List.pairwise_of_forall_mem_list fun first isFirst second _ name inFirst _ => ?_
      simp only [List.mem_map, List.mem_mergeSort, exists_exists_and_eq_and] at isFirst
      obtain ⟨free, isFree, rfl⟩ := isFirst
      obtain rfl : name = free := by simpa using inFirst
      exact (mem_freeVariables.mp isFree).1
    · intro first isFirst second isSecond name inFirst inSecond
      simp only [List.mem_map, List.mem_mergeSort, exists_exists_and_eq_and] at isSecond
      obtain ⟨free, isFree, rfl⟩ := isSecond
      obtain rfl : name = free := by simpa using inSecond
      exact absurd ⟨first, isFirst, mem_variablesOf.mp inFirst⟩ (mem_freeVariables.mp isFree).2

theorem sized_addObjectConditions {arity : Pred → ℕ} (sized : RuleSized arity rule)
    (isNew : ¬ rule.Mentions names.objectPredicate) :
    RuleSized (Function.update arity names.objectPredicate 1) (addObjectConditions names le rule) := by
  have old : ∀ predicate, rule.Mentions predicate →
      Function.update arity names.objectPredicate 1 predicate = arity predicate := by
    intro predicate mentions
    apply Function.update_of_ne
    rintro rfl
    exact isNew mentions
  constructor
  · exact sized.effect.trans (old _ (Or.inl rfl)).symm
  · intro condition isCondition
    rcases (mem_conditions_addObjectConditions names le).mp isCondition with isOriginal | ⟨name, _, rfl⟩
    · exact (sized.conditions condition isOriginal).trans (old _ (Or.inr ⟨condition, isOriginal, rfl⟩)).symm
    · simp

namespace RenamedRule

variable {names} {renamedRule : DatalogRule Pred Var Obj}
  {conditions extra : List (SymbolicAtom Pred Var Obj)}

theorem exists_extra (renamed : RenamedRule names rule renamedRule conditions extra)
    {condition : SymbolicAtom Pred Var Obj} (isExtra : condition ∈ extra) :
    ∃ name number, OccursIn name (rule.effect :: rule.conditions) ∧
      condition = equalityCondition names name (names.renamed name number) := by
  obtain ⟨index, isExtra⟩ := List.mem_iff_getElem?.mp isExtra
  obtain ⟨name, occurs, isEquality⟩ := renamed.added.equalities index condition isExtra
  exact ⟨name, _, occurs, isEquality⟩

theorem tidy (renamed : RenamedRule names rule renamedRule conditions extra)
    (plain : ∀ name, OccursIn name (rule.effect :: rule.conditions) → Plain names name)
    (bound : ∀ name ∈ variablesOf rule.effect, OccursIn name rule.conditions) : Tidy renamedRule := by
  have plainIn : ∀ atom ∈ rule.effect :: rule.conditions, ∀ name ∈ variablesOf atom, Plain names name :=
    fun atom isAtom name occurs => plain name ⟨atom, isAtom, mem_variablesOf.mp occurs⟩
  have slots := List.forall₂_iff_get.mp renamed.renames
  constructor
  · exact renamed.effect.distinct (plainIn _ List.mem_cons_self)
  · intro condition isCondition
    cases renamed.mem_conditions.mp isCondition with
    | inl isRenamed =>
      obtain ⟨index, inRange, rfl⟩ := List.getElem_of_mem isRenamed
      have inOriginal : index < rule.conditions.length := slots.1 ▸ inRange
      refine (slots.2 index inOriginal inRange).distinct (plainIn _ (List.mem_cons_of_mem _ ?_))
      exact List.getElem_mem inOriginal
    | inr isExtra =>
      obtain ⟨name, number, occurs, rfl⟩ := renamed.exists_extra isExtra
      simpa [variablesOf, equalityCondition] using plain name occurs name number
  · intro name inEffect
    rcases renamed.effect.origin name inEffect with inOriginal | ⟨original, isExtra⟩
    · obtain ⟨condition, isCondition, occurs⟩ := bound name inOriginal
      obtain ⟨index, inRange, rfl⟩ := List.getElem_of_mem isCondition
      have inRenamed : index < conditions.length := slots.1 ▸ inRange
      have kept := (slots.2 index inRange inRenamed).kept name (mem_variablesOf.mpr occurs)
      exact ⟨conditions[index], renamed.mem_conditions.mpr (Or.inl (List.getElem_mem inRenamed)), mem_variablesOf.mp kept⟩
    · exact ⟨_, renamed.mem_conditions.mpr (Or.inr isExtra), by simp [equalityCondition]⟩

theorem keepsShared (renamed : RenamedRule names rule renamedRule conditions extra)
    (plain : ∀ name, OccursIn name (rule.effect :: rule.conditions) → Plain names name) (comparable : Comparable rule) :
    KeepsShared renamedRule := by
  obtain ⟨rfl, addedEffect⟩ := renamed.unchanged comparable.distinct
  -- The equality conditions are about variables of the effect.
  have fromEffect : ∀ (index : ℕ) condition, extra[index]? = some condition → ∃ original ∈ variablesOf rule.effect,
      condition = equalityCondition names original (names.renamed original index) := by
    intro index condition isExtra
    obtain ⟨original, occurs, isEquality⟩ := addedEffect.equalities index condition isExtra
    rw [occursIn_cons, or_iff_left not_occursIn_nil, ← mem_variablesOf] at occurs
    exact ⟨original, occurs, by rwa [Nat.zero_add] at isEquality⟩
  have keptEffect : ∀ name ∈ variablesOf rule.effect, name ∈ variablesOf renamedRule.effect := renamed.effect.kept
  rw [KeepsShared, renamed.isConditions]
  refine List.pairwise_append.mpr ⟨?_, ?_, ?_⟩
  · exact comparable.keepsShared.imp fun shared name inFirst inSecond => keptEffect name (shared name inFirst inSecond)
  · rw [List.pairwise_iff_getElem]
    intro i j inRange inRange' less name inFirst inSecond
    obtain ⟨first, isFirst, firstEq⟩ := fromEffect i _ (List.getElem?_eq_getElem inRange)
    obtain ⟨second, isSecond, secondEq⟩ := fromEffect j _ (List.getElem?_eq_getElem inRange')
    rw [firstEq, mem_variablesOf] at inFirst
    rw [secondEq, mem_variablesOf] at inSecond
    simp only [equalityCondition, List.mem_cons, Term.var.injEq, List.not_mem_nil, or_false] at inFirst inSecond
    rcases inFirst with rfl | rfl
    · exact keptEffect _ isFirst
    · rcases inSecond with rfl | same
      · exact keptEffect _ isSecond
      · have := (names.renamed_injective same).2
        omega
  · intro first isFirst second isSecond name inFirst inSecond
    obtain ⟨index, isSecond⟩ := List.mem_iff_getElem?.mp isSecond
    obtain ⟨original, inEffect, rfl⟩ := fromEffect index second isSecond
    rw [mem_variablesOf] at inSecond
    simp only [equalityCondition, List.mem_cons, Term.var.injEq, List.not_mem_nil, or_false] at inSecond
    rcases inSecond with rfl | rfl
    · exact keptEffect _ inEffect
    · have isPlain := plain _ ⟨first, List.mem_cons_of_mem _ isFirst, mem_variablesOf.mp inFirst⟩
      exact absurd rfl (isPlain original index)

theorem sized (renamed : RenamedRule names rule renamedRule conditions extra) {arity : Pred → ℕ}
    (ruleSized : RuleSized arity rule) (pairs : arity names.equality = 2) : RuleSized arity renamedRule := by
  have slots := List.forall₂_iff_get.mp renamed.renames
  constructor
  · rw [renamed.effect.length, renamed.effect.predicate]
    exact ruleSized.effect
  · intro condition isCondition
    cases renamed.mem_conditions.mp isCondition with
    | inl isRenamed =>
      obtain ⟨index, inRange, rfl⟩ := List.getElem_of_mem isRenamed
      have inOriginal : index < rule.conditions.length := slots.1 ▸ inRange
      have renames := slots.2 index inOriginal inRange
      exact renames.length.trans ((ruleSized.conditions _ (List.getElem_mem inOriginal)).trans
        (congrArg arity renames.predicate.symm))
    | inr isExtra =>
      obtain ⟨name, number, _, rfl⟩ := renamed.exists_extra isExtra
      simp [equalityCondition, pairs]

end RenamedRule

/-! ## Rules without conditions -/

theorem groundAtom?_eq_some {symbolic : SymbolicAtom Pred Var Obj} (isGround : groundAtom? symbolic = some atom)
    (valuation : Valuation Var Obj) : symbolic.ground valuation = atom := by
  simp only [groundAtom?, Option.pure_def, Option.bind_eq_bind, Option.bind_eq_some_iff, Option.some.injEq] at isGround
  obtain ⟨args, areObjects, rfl⟩ := isGround
  have each := forall₂_of_mapM areObjects
  have sameArgs : symbolic.args.map (Term.value valuation) = args := by
    rw [← List.map_id args, ← List.forall₂_eq_eq_eq, List.forall₂_map_left_iff, List.forall₂_map_right_iff]
    refine each.imp fun argument known isKnown => ?_
    cases argument with
    | var name => cases isKnown
    | object known => exact Option.some.inj isKnown
  simp only [Atom.ground, sameArgs]

theorem exists_groundAtom? {symbolic : SymbolicAtom Pred Var Obj}
    (noVariable : ∀ name, name ∉ variablesOf symbolic) : ∃ atom, groundAtom? symbolic = some atom := by
  have each : ∀ args : List (Term Var Obj), (∀ name, .var name ∉ args) → ∃ objects : List Obj,
      args.mapM object? = some objects := by
    intro args
    induction args with
    | nil => exact fun _ => ⟨[], rfl⟩
    | cons argument args inductionHypothesis =>
      intro noVariable
      obtain ⟨objects, isObjects⟩ := inductionHypothesis fun name occurs => noVariable name (List.mem_cons_of_mem _ occurs)
      cases argument with
      | var name => exact absurd List.mem_cons_self (noVariable name)
      | object known => exact ⟨known :: objects, by simp [List.mapM_cons, object?, isObjects]⟩
  obtain ⟨objects, isObjects⟩ := each symbolic.args fun name occurs => noVariable name (mem_variablesOf.mpr occurs)
  exact ⟨⟨symbolic.predicate, objects⟩, by simp [groundAtom?, isObjects]⟩

/-- The rules with conditions stay, and the effects of the others become facts. -/
structure Converts (program : PrologProgram Pred Var Obj) (rules : List (DatalogRule Pred Var Obj))
    (result : PrologProgram Pred Var Obj) : Prop where
  isRules : result.rules = program.rules ++ rules.filter (·.conditions ≠ [])
  isFacts : ∀ atom, atom ∈ result.facts ↔ atom ∈ program.facts ∨
    ∃ rule ∈ rules, rule.conditions = [] ∧ groundAtom? rule.effect = some atom

theorem foldlM_addTrivialRule (rules : List (DatalogRule Pred Var Obj))
    (ground : ∀ rule ∈ rules, rule.conditions = [] → ∀ name, name ∉ variablesOf rule.effect)
    (program : PrologProgram Pred Var Obj) :
    ∃ result, rules.foldlM addTrivialRule program = some result ∧ Converts program rules result := by
  induction rules generalizing program with
  | nil => exact ⟨program, rfl, by simp, by simp⟩
  | cons rule rules inductionHypothesis =>
    obtain ⟨groundFirst, groundRest⟩ := List.forall_mem_cons.mp ground
    by_cases isTrivial : rule.conditions = []
    · obtain ⟨atom, isGround⟩ := exists_groundAtom? (groundFirst isTrivial)
      obtain ⟨result, isResult, converts⟩ := inductionHypothesis groundRest (program.addFact atom)
      refine ⟨result, by simp [List.foldlM_cons, addTrivialRule, isTrivial, isGround, isResult], ?_, fun other => ?_⟩
      · rw [converts.isRules]
        simp [isTrivial, addFact]
      · rw [converts.isFacts other]
        simp [addFact, isTrivial, isGround, or_assoc, eq_comm]
    · obtain ⟨result, isResult, converts⟩ := inductionHypothesis groundRest { program with rules := program.rules ++ [rule] }
      refine ⟨result, by simp [List.foldlM_cons, addTrivialRule, isTrivial, isResult], ?_, fun other => ?_⟩
      · rw [converts.isRules]
        simp [isTrivial]
      · rw [converts.isFacts other]
        simp [isTrivial]

theorem exists_convertTrivialRules
    (ground : ∀ rule ∈ program.rules, rule.conditions = [] → ∀ name, name ∉ variablesOf rule.effect) :
    ∃ result, program.convertTrivialRules = some result ∧ Converts { program with rules := [] } program.rules result :=
  foldlM_addTrivialRule program.rules ground _

theorem convertTrivialRules_preserves [Inhabited Obj] {result : PrologProgram Pred Var Obj}
    (ground : ∀ rule ∈ program.rules, rule.conditions = [] → ∀ name, name ∉ variablesOf rule.effect)
    (converts : Converts { program with rules := [] } program.rules result) :
    LeastModel program.factSet program.rulesOf atom ↔ LeastModel result.factSet result.rulesOf atom := by
  have isFact : ∀ fact, fact ∈ result.factSet ↔ _ := converts.isFacts
  have isRule : ∀ rule, rule ∈ result.rulesOf ↔ rule ∈ program.rules ∧ rule.conditions ≠ [] := by
    intro rule
    simp [rulesOf, converts.isRules]
  constructor
  · refine LeastModel.mono (fun fact member => .fact ((isFact fact).mpr (Or.inl member))) ?_
    intro rule member valuation conditions
    by_cases isTrivial : rule.conditions = []
    · obtain ⟨fact, isGround⟩ := exists_groundAtom? (ground rule member isTrivial)
      rw [groundAtom?_eq_some isGround valuation]
      exact .fact ((isFact fact).mpr (Or.inr ⟨rule, member, isTrivial, isGround⟩))
    · exact .rule ((isRule rule).mpr ⟨member, isTrivial⟩) valuation conditions
  · refine LeastModel.mono (fun fact member => ?_) fun rule member valuation conditions => ?_
    · rcases (isFact fact).mp member with isOriginal | ⟨rule, member, isTrivial, isGround⟩
      · exact .fact isOriginal
      · rw [← groundAtom?_eq_some isGround fun _ => default]
        exact LeastModel.rule (show rule ∈ program.rulesOf from member) _ (by simp [isTrivial])
    · exact LeastModel.rule (show rule ∈ program.rulesOf from ((isRule rule).mp member).1) valuation conditions

end CutPlan.Translate.PrologProgram
