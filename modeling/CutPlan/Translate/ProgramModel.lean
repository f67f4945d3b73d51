import CutPlan.Translate.ProgramNormalForm

/-! # The model of the grounding program

The program is brought into normal form, its rules are split, and the model of the result is computed.  Over the
predicates of the program the computed atoms contain the least model.  They are the least model when conditions have
distinct variables and share only variables of the effect.
-/

set_option linter.unusedSectionVars false

namespace CutPlan.Translate

open CutPlan.Lib

variable {Pred Var Obj : Type} [DecidableEq Pred] [DecidableEq Var] [DecidableEq Obj]

/-! ## Computed atoms and derivations -/

section Derivations

variable {facts : List (Atom Pred Obj)} {rules : List (TypedRule Pred Var Obj)}

theorem factAtom_injective {first second : Atom Pred Obj}
    (same : (factAtom first : BuildAtom Pred Var Obj) = factAtom second) : first = second := by
  have samePredicate := congrArg Atom.predicate same
  have sameArgs := congrArg Atom.args same
  obtain ⟨predicate, args⟩ := first
  obtain ⟨predicate', args'⟩ := second
  have injective : Function.Injective fun object : Obj => (BuildArgument.term (.object object) : BuildArgument Var Obj) :=
    fun _ _ isSame => by simpa using isSame
  simp only [factAtom] at samePredicate sameArgs
  rw [samePredicate, List.map_injective_iff.mpr injective sameArgs]

/-- What follows from the facts by loose instances of the rules. -/
def LooseModel (facts : List (Atom Pred Obj)) (rules : List (TypedRule Pred Var Obj)) :
    Atom Pred Obj → Prop :=
  Follows {fact | fact ∈ facts} fun premises conclusion => ∃ typed ∈ rules, InfersLoosely typed.rule premises conclusion

theorem looseModel_of_leastModel {atom : Atom Pred Obj}
    (derived : LeastModel {fact | fact ∈ facts} (ruleSet rules) atom) : LooseModel facts rules atom := by
  refine Follows.mono (fun fact isFact => .given isFact) ?_ derived
  rintro premises conclusion ⟨rule, ⟨typed, isTyped, rfl⟩, infers⟩ premisesFollow
  exact .inferred ⟨typed, isTyped, .of_infers infers⟩ premisesFollow

theorem leastModel_of_looseModel (keepsShared : ∀ typed ∈ rules, KeepsShared typed.rule) {atom : Atom Pred Obj}
    (derived : LooseModel facts rules atom) : LeastModel {fact | fact ∈ facts} (ruleSet rules) atom := by
  refine Follows.mono (fun fact isFact => .given isFact) ?_ derived
  rintro premises conclusion ⟨typed, isTyped, loosely⟩ premisesFollow
  exact .inferred ⟨typed.rule, ⟨typed, isTyped, rfl⟩, loosely.infers (keepsShared typed isTyped)⟩ premisesFollow

theorem exists_atoms {atoms : List (BuildAtom Pred Var Obj)} {holds : Atom Pred Obj → Prop}
    (each : ∀ atom ∈ atoms, ∃ fact, atom = factAtom fact ∧ holds fact) :
    ∃ facts : List (Atom Pred Obj), atoms = facts.map factAtom ∧ ∀ fact ∈ facts, holds fact := by
  induction atoms with
  | nil => exact ⟨[], rfl, by simp⟩
  | cons atom atoms inductionHypothesis =>
    obtain ⟨⟨fact, rfl, holdsFact⟩, rest⟩ := List.forall_mem_cons.mp each
    obtain ⟨facts, rfl, holdsRest⟩ := inductionHypothesis rest
    exact ⟨fact :: facts, rfl, List.forall_mem_cons.mpr ⟨holdsFact, holdsRest⟩⟩

theorem follows_numbered_iff [Inhabited Obj] (normal : ∀ typed ∈ rules, NormalRule typed.rule)
    {conclusion : BuildAtom Pred Var Obj} :
    Follows {fact | fact ∈ facts.map factAtom} (InfersAny (numberedShapes rules)) conclusion ↔
      ∃ atom, conclusion = factAtom atom ∧ LooseModel facts rules atom := by
  constructor
  · refine Follows.least {conclusion | ∃ atom, conclusion = factAtom atom ∧ LooseModel facts rules atom} ?_ ?_
    · intro fact isFact
      obtain ⟨original, isOriginal, rfl⟩ := List.mem_map.mp isFact
      exact ⟨original, rfl, .given isOriginal⟩
    · rintro premises conclusion ⟨shape, isShape, infers⟩ havePremises
      obtain ⟨typed, isTyped, rfl⟩ := List.mem_map.mp isShape
      obtain ⟨atoms, rfl, derived⟩ := exists_atoms havePremises
      obtain ⟨atom, rfl, loosely⟩ := infersLoosely_of_buildInfers (normal typed isTyped) infers
      exact ⟨atom, rfl, .inferred ⟨typed, isTyped, loosely⟩ derived⟩
  · rintro ⟨atom, rfl, derived⟩
    refine Follows.least {atom | Follows _ _ (factAtom atom)} ?_ ?_ derived
    · exact fun fact isFact => .given (List.mem_map_of_mem isFact)
    · rintro premises conclusion ⟨typed, isTyped, loosely⟩ premisesFollow
      refine Follows.inferred ⟨_, List.mem_map_of_mem isTyped, loosely.buildInfers (normal typed isTyped).distinctEffect⟩ ?_
      simpa using premisesFollow

/-- The computed atoms are ground. -/
theorem exists_computed [Inhabited Obj] (normal : ∀ typed ∈ rules, NormalRule typed.rule)
    {computed : List (BuildAtom Pred Var Obj)} (nodup : computed.Nodup)
    (noFacts : ∀ atom ∈ computed, atom ∉ facts.map factAtom)
    (follows : ∀ atom, atom ∈ facts.map factAtom ++ computed ↔
      Follows {fact | fact ∈ facts.map factAtom} (InfersAny (numberedShapes rules)) atom) :
    ∃ derived : List (Atom Pred Obj), computed = derived.map factAtom ∧ derived.Nodup ∧
      (∀ atom ∈ derived, atom ∉ facts) ∧ ∀ atom, atom ∈ facts ++ derived ↔ LooseModel facts rules atom := by
  have areGround : ∀ atom ∈ computed, ∃ fact, atom = factAtom fact ∧ LooseModel facts rules fact := fun atom isComputed =>
    (follows_numbered_iff normal).mp ((follows atom).mp (List.mem_append_right _ isComputed))
  obtain ⟨derived, rfl, _⟩ := exists_atoms areGround
  refine ⟨derived, rfl, nodup.of_map _, fun atom member isFact => ?_, fun atom => ?_⟩
  · exact noFacts _ (List.mem_map_of_mem member) (List.mem_map_of_mem isFact)
  · have isMember := follows (factAtom atom)
    rw [← List.map_append, List.mem_map_of_injective fun _ _ => factAtom_injective, follows_numbered_iff normal] at isMember
    rw [isMember]
    constructor
    · rintro ⟨found, same, derived⟩
      rwa [factAtom_injective same]
    · exact fun derived => ⟨atom, rfl, derived⟩

theorem convertRules_isSome (converts : ∀ typed ∈ rules, (convertRule typed).isSome = true) :
    (convertRules rules).isSome = true := by
  rw [convertRules]
  induction rules with
  | nil => rfl
  | cons typed rules inductionHypothesis =>
    obtain ⟨first, rest⟩ := List.forall_mem_cons.mp converts
    obtain ⟨rule, isRule⟩ := Option.isSome_iff_exists.mp first
    obtain ⟨others, areOthers⟩ := Option.isSome_iff_exists.mp (inductionHypothesis rest)
    simp [List.mapM_cons, isRule, areOthers]

/-- The computation never stops early, and its result is the loose model: the facts in the order in which they are
printed, and after them every other atom once. -/
theorem computeModel_findsLooseModel [Inhabited Obj] {arity : Pred → ℕ} (program : NormalProgram arity facts rules)
    (converts : (convertRules rules).isSome = true) (str : Atom Pred Obj → String) :
    ∃ bound, ∀ fuel ≥ bound, ∃ derived,
      computeModel str fuel facts rules = some ((sortFactAtoms str facts ++ derived).map factAtom) ∧ derived.Nodup ∧
        (∀ atom ∈ derived, atom ∉ facts) ∧ ∀ atom, atom ∈ facts ++ derived ↔ LooseModel facts rules atom := by
  obtain ⟨bound, enough⟩ := computeModel_takesConsequences str program converts
  refine ⟨bound, fun fuel isEnough => ?_⟩
  obtain ⟨computed, isModel, nodup, noFacts, follows⟩ := enough fuel isEnough
  obtain ⟨derived, rfl, distinct, notFacts, isModelIff⟩ := exists_computed program.normal nodup noFacts follows
  exact ⟨derived, by rw [isModel, List.map_append], distinct, notFacts, isModelIff⟩

/-- The object is not the same in both facts. -/
theorem computeModel_joinsLoosely :
    ∃ bound, ∀ fuel ≥ bound, ∃ derived,
      computeModel Atom.predicate fuel [⟨"act", ["a", "b"]⟩, ⟨"p", ["c"]⟩]
          [⟨.join, ⟨[⟨"act", [.var "?x", .var "?y"]⟩, ⟨"p", [.var "?x"]⟩], ⟨"q", [.var "?y"]⟩⟩⟩] =
        some ((sortFactAtoms Atom.predicate [⟨"act", ["a", "b"]⟩, ⟨"p", ["c"]⟩] ++ derived).map factAtom) ∧
      ⟨"q", ["b"]⟩ ∈ derived := by
  have program : NormalProgram (fun predicate => if predicate = "act" then 2 else 1)
      [(⟨"act", ["a", "b"]⟩ : Atom String String), ⟨"p", ["c"]⟩]
      [⟨.join, ⟨[⟨"act", [.var "?x", .var "?y"]⟩, ⟨"p", [.var "?x"]⟩], ⟨"q", [.var "?y"]⟩⟩⟩] := by
    constructor
    · simp only [List.mem_singleton, forall_eq]
      exact ⟨by decide, by decide, by simp [variablesOf, OccursIn], by simp⟩
    all_goals simp
  obtain ⟨bound, enough⟩ := computeModel_findsLooseModel program (by decide) Atom.predicate
  refine ⟨bound, fun fuel isEnough => ?_⟩
  obtain ⟨derived, isModel, _, _, isModelIff⟩ := enough fuel isEnough
  refine ⟨derived, isModel, ?_⟩
  have isDerived := (isModelIff ⟨"q", ["b"]⟩).mpr (.inferred ⟨_, List.mem_singleton_self _, fun _ => "b", rfl,
    .cons ⟨fun name => if name = "?x" then "a" else "b", by decide, rfl⟩ (.cons ⟨fun name => if name = "?x" then "c" else "b",
      by decide, rfl⟩ .nil)⟩ (by
        intro premise member
        exact .given member))
  simpa using isDerived

/-- Splitting keeps the atoms over the predicates of the rules, and the new rules pass all checks of the computation. -/
theorem splitRules_keepsModel {newName : ℕ → Pred} (injective : Function.Injective newName)
    (le : Term Var Obj → Term Var Obj → Bool)
    (less : SymbolicAtom Pred Var Obj → SymbolicAtom Pred Var Obj → Bool)
    {given : Set (Atom Pred Obj)} {original : List (DatalogRule Pred Var Obj)} {count : ℕ}
    (normal : ∀ rule ∈ original, NormalRule rule) (fresh : Fresh newName count given {rule | rule ∈ original}) :
    (∀ atom, Unused newName count atom.predicate →
      (LeastModel given {rule | rule ∈ original} atom ↔
        LeastModel given (ruleSet (splitRules newName le less original count).1) atom)) ∧
      (∀ typed ∈ (splitRules newName le less original count).1, NormalRule typed.rule) ∧
        (convertRules (splitRules newName le less original count).1).isSome = true := by
  have splits := splitRules_splits le less injective original count normal
  refine ⟨fun atom isOld => ?_, splits.normal, convertRules_isSome splits.converts⟩
  have preserves := splits.rewrites.preserves given ∅ (by rwa [Set.union_empty]) atom isOld
  rwa [Set.union_empty, Set.union_empty] at preserves

theorem splitRules_keepsPath :
    LeastModel {⟨"edge", ["a", "b"]⟩, ⟨"edge", ["b", "c"]⟩}
      (ruleSet (splitRules (fun number => "p$" ++ toString number) (fun _ _ => true) (fun _ _ => false)
        [⟨[⟨"edge", [.var "?x", .var "?y"]⟩, ⟨"edge", [.var "?y", .var "?z"]⟩], ⟨"path", [.var "?x", .var "?z"]⟩⟩] 0).1)
      ⟨"path", ["a", "c"]⟩ := by
  have isOld : ∀ predicate, predicate = "edge" ∨ predicate = "path" →
      Unused (fun number : ℕ => "p$" ++ toString number) 0 predicate := by
    rintro predicate (rfl | rfl) <;> exact fun number _ => ne_pseudoPredicate (by decide) number
  refine ((splitRules_keepsModel pseudoPredicate_injective _ _ ?_ ?_).1 _ (isOld _ (by simp))).mp ?_
  · simp only [List.mem_singleton, forall_eq]
    exact ⟨by decide, by decide, by simp [variablesOf, OccursIn], by simp⟩
  · refine ⟨by simpa using isOld _ (Or.inl rfl), ?_⟩
    simp only [List.mem_singleton, Set.mem_ofPred_eq, forall_eq]
    rintro predicate (rfl | ⟨condition, isCondition, rfl⟩)
    · exact isOld _ (by simp)
    · simp only [List.mem_cons, List.not_mem_nil, or_false] at isCondition
      rcases isCondition with rfl | rfl <;> exact isOld _ (by simp)
  · refine LeastModel.rule (Set.mem_ofPred.mpr (List.mem_singleton_self _))
      (fun name => if name = "?x" then "a" else if name = "?y" then "b" else "c") fun condition isCondition => ?_
    simp only [List.mem_cons, List.not_mem_nil, or_false] at isCondition
    rcases isCondition with rfl | rfl <;> exact .fact (by simp [Atom.ground])

end Derivations

/-! ## From the program to the computed model -/

namespace PrologProgram

section Translation

variable (names : ReservedNames Pred Var) (le : Term Var Obj → Term Var Obj → Bool)
  (less : SymbolicAtom Pred Var Obj → SymbolicAtom Pred Var Obj → Bool)

/-- The facts and the split rules of the normalized program. -/
def translate (facts : List (Atom Pred Obj)) (rules : List (DatalogRule Pred Var Obj)) :
    Option (List (Atom Pred Obj) × List (TypedRule Pred Var Obj)) := do
  let program ← (ofFacts facts rules).normalize names le
  return (program.facts, (splitRules names.newName le less program.rules 0).1)

def explore (str : Atom Pred Obj → String) (fuel : ℕ) (facts : List (Atom Pred Obj))
    (rules : List (DatalogRule Pred Var Obj)) : Option (List (BuildAtom Pred Var Obj)) := do
  let (facts, rules) ← translate names le less facts rules
  computeModel str fuel facts rules

end Translation

variable (names : ReservedNames Pred Var)

/-- A predicate of the program itself. -/
def Old (predicate : Pred) : Prop :=
  predicate ≠ names.objectPredicate ∧ Unused names.newName 0 predicate

def objectsOf (facts : List (Atom Pred Obj)) : Set Obj := {obj | ∃ fact ∈ facts, obj ∈ fact.args}

/-- A program over predicates with arities that does not use reserved names; every object is known to be equal
to itself, and only to itself. -/
structure Groundable (arity : Pred → ℕ) (facts : List (Atom Pred Obj))
    (rules : List (DatalogRule Pred Var Obj)) : Prop where
  factsOld : ∀ fact ∈ facts, Old names fact.predicate
  rulesOld : ∀ rule ∈ rules, ∀ predicate, rule.Mentions predicate → Old names predicate
  plain : ∀ rule ∈ rules, ∀ name, OccursIn name (rule.effect :: rule.conditions) → Plain names name
  equalityFacts : ∀ args, ⟨names.equality, args⟩ ∈ facts ↔ ∃ obj ∈ objectsOf facts, args = [obj, obj]
  noEqualityRule : ∀ rule ∈ rules, rule.effect.predicate ≠ names.equality
  ruleObjects : ∀ rule ∈ rules, ∀ obj, .object obj ∈ rule.effect.args → obj ∈ objectsOf facts
  factsSized : ∀ fact ∈ facts, fact.args.length = arity fact.predicate
  rulesSized : ∀ rule ∈ rules, RuleSized arity rule
  pairs : arity names.equality = 2

theorem foldl_addFact (facts : List (Atom Pred Obj)) (program : PrologProgram Pred Var Obj) :
    (facts.foldl addFact program).facts = program.facts ++ facts ∧
      ∀ obj, obj ∈ (facts.foldl addFact program).objects ↔ obj ∈ program.objects ∨ obj ∈ objectsOf facts := by
  induction facts generalizing program with
  | nil => simp [objectsOf]
  | cons fact facts inductionHypothesis =>
    obtain ⟨isFacts, isObjects⟩ := inductionHypothesis (program.addFact fact)
    rw [List.foldl_cons, isFacts]
    refine ⟨by simp [addFact], fun obj => ?_⟩
    rw [isObjects]
    simp [addFact, objectsOf, or_assoc]

@[simp] theorem facts_ofFacts (facts : List (Atom Pred Obj)) (rules : List (DatalogRule Pred Var Obj)) :
    (ofFacts facts rules).facts = facts := by
  have := (foldl_addFact facts (⟨[], [], []⟩ : PrologProgram Pred Var Obj)).1
  simpa [ofFacts] using this

@[simp] theorem objects_ofFacts (facts : List (Atom Pred Obj)) (rules : List (DatalogRule Pred Var Obj)) :
    {obj | obj ∈ (ofFacts facts rules).objects} = objectsOf facts := by
  ext obj
  have := (foldl_addFact facts (⟨[], [], []⟩ : PrologProgram Pred Var Obj)).2 obj
  simpa [ofFacts] using this

/-! ### The normal form -/

section NormalForm

variable {names} {arity : Pred → ℕ} {facts : List (Atom Pred Obj)}
  {rules : List (DatalogRule Pred Var Obj)} {rule : DatalogRule Pred Var Obj}
  {le : Term Var Obj → Term Var Obj → Bool}

theorem mentions_addObjectConditions {predicate : Pred}
    (mentions : (addObjectConditions names le rule).Mentions predicate) :
    rule.Mentions predicate ∨ predicate = names.objectPredicate := by
  rcases mentions with isEffect | ⟨condition, isCondition, rfl⟩
  · exact Or.inl (Or.inl isEffect)
  · rcases (mem_conditions_addObjectConditions names le).mp isCondition with isOriginal | ⟨name, _, rfl⟩
    · exact Or.inl (Or.inr ⟨condition, isOriginal, rfl⟩)
    · exact Or.inr rfl

theorem RenamedRule.mentions {renamedRule : DatalogRule Pred Var Obj}
    {conditions extra : List (SymbolicAtom Pred Var Obj)}
    (renamed : RenamedRule names rule renamedRule conditions extra) {predicate : Pred}
    (mentions : renamedRule.Mentions predicate) : rule.Mentions predicate ∨ predicate = names.equality := by
  rcases mentions with isEffect | ⟨condition, isCondition, rfl⟩
  · exact Or.inl (Or.inl (renamed.effect.predicate.symm.trans isEffect))
  · cases renamed.mem_conditions.mp isCondition with
    | inl isRenamed =>
      have slots := List.forall₂_iff_get.mp renamed.renames
      obtain ⟨index, inRange, rfl⟩ := List.getElem_of_mem isRenamed
      have inOriginal : index < rule.conditions.length := slots.1 ▸ inRange
      exact Or.inl (Or.inr ⟨_, List.getElem_mem inOriginal, (slots.2 index inOriginal inRange).predicate.symm⟩)
    | inr isExtra =>
      obtain ⟨name, number, _, rfl⟩ := renamed.exists_extra isExtra
      exact Or.inr rfl

theorem occursIn_addObjectConditions {name : Var}
    (occurs : OccursIn name ((addObjectConditions names le rule).effect :: (addObjectConditions names le rule).conditions)) :
    OccursIn name (rule.effect :: rule.conditions) := by
  obtain ⟨atom, isAtom, occurs⟩ := occurs
  rw [List.mem_cons, mem_conditions_addObjectConditions] at isAtom
  rcases isAtom with rfl | isCondition | ⟨free, isFree, rfl⟩
  · exact ⟨rule.effect, List.mem_cons_self, occurs⟩
  · exact ⟨atom, List.mem_cons_of_mem _ isCondition, occurs⟩
  · obtain rfl : name = free := by simpa using occurs
    exact ⟨rule.effect, List.mem_cons_self, mem_variablesOf.mp (mem_freeVariables.mp isFree).1⟩

/-- What the normalization of a program leads to. -/
structure Normalized (names : ReservedNames Pred Var) (arity : Pred → ℕ) (facts : List (Atom Pred Obj))
    (rules : List (DatalogRule Pred Var Obj)) (program : PrologProgram Pred Var Obj) : Prop where
  normal : ∀ rule ∈ program.rules, NormalRule rule
  fresh : Fresh names.newName 0 program.factSet program.rulesOf
  factsSized : ∀ fact ∈ program.facts, fact.args.length = arity fact.predicate
  rulesSized : ∀ rule ∈ program.rules, RuleSized arity rule
  preserves : ∀ atom : Atom Pred Obj, atom.predicate ≠ names.objectPredicate →
    (LeastModelWithin (objectsOf facts) {fact | fact ∈ facts} {rule | rule ∈ rules} atom ↔
      LeastModel program.factSet program.rulesOf atom)
  keepsShared : (∀ rule ∈ rules, Comparable rule) → ∀ rule ∈ program.rules, KeepsShared rule

namespace Groundable

/-- The rules after the first two steps. -/
abbrev renamedProgram (names : ReservedNames Pred Var) (le : Term Var Obj → Term Var Obj → Bool)
    (facts : List (Atom Pred Obj)) (rules : List (DatalogRule Pred Var Obj)) :
    PrologProgram Pred Var Obj :=
  ((ofFacts facts rules).removeFreeEffectVariables names le).splitDuplicateArguments names

theorem exists_rule {renamedRule : DatalogRule Pred Var Obj}
    (isRule : renamedRule ∈ (renamedProgram names le facts rules).rules) :
    ∃ rule ∈ rules, ∃ conditions extra,
      RenamedRule names (addObjectConditions names le rule) renamedRule conditions extra := by
  obtain ⟨bound, isBound, rfl⟩ := List.mem_map.mp isRule
  obtain ⟨rule, isOriginal, rfl⟩ := List.mem_map.mp isBound
  obtain ⟨conditions, extra, renamed⟩ := exists_renamedRule names (addObjectConditions names le rule)
  exact ⟨rule, isOriginal, conditions, extra, renamed⟩

theorem mem_facts {fact : Atom Pred Obj} (isFact : fact ∈ (renamedProgram names le facts rules).facts) :
    fact ∈ facts ∨ ∃ obj ∈ objectsOf facts, fact = ⟨names.objectPredicate, [obj]⟩ := by
  rcases (mem_facts_removeFreeEffectVariables names le).mp isFact with isOriginal | ⟨_, obj, isObject, isNew⟩
  · rw [facts_ofFacts] at isOriginal
    exact Or.inl isOriginal
  · refine Or.inr ⟨obj, ?_, isNew⟩
    rw [← objects_ofFacts facts rules]
    exact isObject

theorem plain_addObjectConditions (groundable : Groundable names arity facts rules) (isRule : rule ∈ rules) {name : Var}
    (occurs : OccursIn name ((addObjectConditions names le rule).effect :: (addObjectConditions names le rule).conditions)) :
    Plain names name :=
  groundable.plain rule isRule name (occursIn_addObjectConditions occurs)

theorem tidy (groundable : Groundable names arity facts rules) {renamedRule : DatalogRule Pred Var Obj}
    (isRule : renamedRule ∈ (renamedProgram names le facts rules).rules) : Tidy renamedRule := by
  obtain ⟨rule, isRule, conditions, extra, renamed⟩ := exists_rule isRule
  exact renamed.tidy (fun name occurs => groundable.plain_addObjectConditions isRule occurs) fun name =>
    bound_addObjectConditions names le

theorem equalities (groundable : Groundable names arity facts rules) :
    Equalities names ((ofFacts facts rules).removeFreeEffectVariables names le) (objectsOf facts) := by
  have isFact : ∀ {fact}, fact ∈ ((ofFacts facts rules).removeFreeEffectVariables names le).facts ↔ _ :=
    fun {_} => mem_facts_removeFreeEffectVariables names le
  constructor
  · intro args
    rw [isFact, facts_ofFacts, ← groundable.equalityFacts]
    refine or_iff_left ?_
    rintro ⟨_, obj, _, same⟩
    exact names.object_ne_equality (congrArg Atom.predicate same).symm
  · intro rule' isRule
    obtain ⟨rule, isOriginal, rfl⟩ := List.mem_map.mp isRule
    exact groundable.noEqualityRule rule isOriginal
  · intro fact member obj isArg
    rcases isFact.mp member with isOriginal | ⟨_, known, isObject, rfl⟩
    · rw [facts_ofFacts] at isOriginal
      exact ⟨fact, isOriginal, isArg⟩
    · obtain rfl := List.mem_singleton.mp isArg
      rw [← objects_ofFacts facts rules]
      exact isObject
  · intro rule' isRule obj inEffect
    obtain ⟨rule, isOriginal, rfl⟩ := List.mem_map.mp isRule
    exact groundable.ruleObjects rule isOriginal obj inEffect

theorem unused_of_mentions (groundable : Groundable names arity facts rules)
    {renamedRule : DatalogRule Pred Var Obj}
    (isRule : renamedRule ∈ (renamedProgram names le facts rules).rules) {predicate : Pred}
    (mentions : renamedRule.Mentions predicate) : Unused names.newName 0 predicate := by
  obtain ⟨rule, isRule, conditions, extra, renamed⟩ := exists_rule isRule
  rcases renamed.mentions mentions with inBound | rfl
  · rcases mentions_addObjectConditions inBound with inOriginal | rfl
    · exact (groundable.rulesOld rule isRule predicate inOriginal).2
    · exact fun number _ => names.newName_ne_object number
  · exact fun number _ => names.newName_ne_equality number

theorem unused_of_fact (groundable : Groundable names arity facts rules) {fact : Atom Pred Obj}
    (isFact : fact ∈ (renamedProgram names le facts rules).facts) : Unused names.newName 0 fact.predicate := by
  rcases mem_facts isFact with isOriginal | ⟨obj, _, rfl⟩
  · exact (groundable.factsOld fact isOriginal).2
  · exact fun number _ => names.newName_ne_object number

theorem ruleSized (groundable : Groundable names arity facts rules) {renamedRule : DatalogRule Pred Var Obj}
    (isRule : renamedRule ∈ (renamedProgram names le facts rules).rules) :
    RuleSized (Function.update arity names.objectPredicate 1) renamedRule := by
  obtain ⟨rule, isRule, conditions, extra, renamed⟩ := exists_rule isRule
  refine renamed.sized (sized_addObjectConditions names le (groundable.rulesSized rule isRule) ?_) ?_
  · exact fun mentions => (groundable.rulesOld rule isRule _ mentions).1 rfl
  · rw [Function.update_of_ne names.object_ne_equality.symm]
    exact groundable.pairs

theorem factSized (groundable : Groundable names arity facts rules) {fact : Atom Pred Obj}
    (isFact : fact ∈ (renamedProgram names le facts rules).facts) :
    fact.args.length = Function.update arity names.objectPredicate 1 fact.predicate := by
  rcases mem_facts isFact with isOriginal | ⟨obj, _, rfl⟩
  · rw [Function.update_of_ne (groundable.factsOld fact isOriginal).1]
    exact groundable.factsSized fact isOriginal
  · simp

theorem exists_normalized [Inhabited Obj] (groundable : Groundable names arity facts rules)
    (le : Term Var Obj → Term Var Obj → Bool) :
    ∃ program, (ofFacts facts rules).normalize names le = some program ∧
      Normalized names (Function.update arity names.objectPredicate 1) facts rules program := by
  have ground : ∀ rule ∈ (renamedProgram names le facts rules).rules, rule.conditions = [] →
      ∀ name, name ∉ variablesOf rule.effect := by
    intro rule isRule noCondition name inEffect
    have occurs := (groundable.tidy isRule).bound name inEffect
    rw [noCondition] at occurs
    exact not_occursIn_nil occurs
  obtain ⟨program, isProgram, converts⟩ := exists_convertTrivialRules ground
  refine ⟨program, isProgram, ?_⟩
  have isRule : ∀ rule, rule ∈ program.rules ↔ rule ∈ (renamedProgram names le facts rules).rules ∧ rule.conditions ≠ [] := by
    intro rule
    simp [converts.isRules]
  have groundArgs : ∀ (symbolic : SymbolicAtom Pred Var Obj) atom, groundAtom? symbolic = some atom →
      atom.predicate = symbolic.predicate ∧ atom.args.length = symbolic.args.length := by
    intro symbolic atom isGround
    rw [← groundAtom?_eq_some isGround fun _ => default]
    exact ⟨rfl, by simp [Atom.ground]⟩
  constructor
  · intro rule member
    obtain ⟨isRenamed, nonempty⟩ := (isRule rule).mp member
    exact (groundable.tidy isRenamed).normal nonempty
  · constructor
    · intro fact member
      rcases (converts.isFacts fact).mp member with isFact | ⟨rule, isRenamed, _, isGround⟩
      · exact groundable.unused_of_fact (show fact ∈ (renamedProgram names le facts rules).facts from isFact)
      · rw [(groundArgs _ _ isGround).1]
        exact groundable.unused_of_mentions isRenamed (Or.inl rfl)
    · intro rule member predicate mentions
      exact groundable.unused_of_mentions ((isRule rule).mp member).1 mentions
  · intro fact member
    rcases (converts.isFacts fact).mp member with isFact | ⟨rule, isRenamed, _, isGround⟩
    · exact groundable.factSized (show fact ∈ (renamedProgram names le facts rules).facts from isFact)
    · rw [(groundArgs _ _ isGround).1, (groundArgs _ _ isGround).2]
      exact (groundable.ruleSized isRenamed).effect
  · exact fun rule member => groundable.ruleSized ((isRule rule).mp member).1
  · intro atom isOld
    rw [← convertTrivialRules_preserves ground converts]
    rw [← splitDuplicateArguments_preserves names groundable.equalities]
    · have removed := removeFreeEffectVariables_preserves names le
        (show ∀ fact ∈ (ofFacts facts rules).facts, fact.predicate ≠ names.objectPredicate by
          simpa using fun fact isFact => (groundable.factsOld fact isFact).1)
        (fun rule isRule mentions => (groundable.rulesOld rule isRule _ mentions).1 rfl) isOld
      have sameFacts : (ofFacts facts rules).factSet = {fact | fact ∈ facts} := by simp [factSet]
      rw [objects_ofFacts, sameFacts] at removed
      exact removed
    · intro rule' isRule name occurs
      obtain ⟨rule, isOriginal, rfl⟩ := List.mem_map.mp isRule
      exact groundable.plain_addObjectConditions isOriginal occurs
    · intro rule' isRule name inEffect
      obtain ⟨rule, isOriginal, rfl⟩ := List.mem_map.mp isRule
      exact bound_addObjectConditions names le inEffect
  · intro comparable rule member
    obtain ⟨original, isOriginal, conditions, extra, renamed⟩ := exists_rule ((isRule rule).mp member).1
    exact renamed.keepsShared (fun name occurs => groundable.plain_addObjectConditions isOriginal occurs)
      (comparable_addObjectConditions names le (comparable original isOriginal))

end Groundable

/-! ### The computed model -/

theorem explore_eq_some {le : Term Var Obj → Term Var Obj → Bool}
    {less : SymbolicAtom Pred Var Obj → SymbolicAtom Pred Var Obj → Bool}
    {str : Atom Pred Obj → String} {fuel : ℕ} {program : PrologProgram Pred Var Obj}
    (isProgram : (ofFacts facts rules).normalize names le = some program) :
    explore names le less str fuel facts rules =
      computeModel str fuel program.facts (splitRules names.newName le less program.rules 0).1 := by
  simp [explore, translate, isProgram]

/-- The computation ends without a failed assertion.  It finds the least model, and it finds nothing else when
conditions have distinct variables and share only variables of the effect; no derived atom is enqueued twice. -/
theorem explore_findsLeastModel [Inhabited Obj] (groundable : Groundable names arity facts rules)
    (le : Term Var Obj → Term Var Obj → Bool)
    (less : SymbolicAtom Pred Var Obj → SymbolicAtom Pred Var Obj → Bool)
    (str : Atom Pred Obj → String) :
    ∃ program bound, (ofFacts facts rules).normalize names le = some program ∧ ∀ fuel ≥ bound, ∃ derived,
      explore names le less str fuel facts rules = some ((sortFactAtoms str program.facts ++ derived).map factAtom) ∧
        derived.Nodup ∧ (∀ atom ∈ derived, atom ∉ program.facts) ∧
        (∀ atom, Old names atom.predicate →
          LeastModelWithin (objectsOf facts) {fact | fact ∈ facts} {rule | rule ∈ rules} atom →
            atom ∈ program.facts ++ derived) ∧
        ((∀ rule ∈ rules, Comparable rule) → ∀ atom ∈ program.facts ++ derived, Old names atom.predicate →
          LeastModelWithin (objectsOf facts) {fact | fact ∈ facts} {rule | rule ∈ rules} atom) := by
  obtain ⟨program, isProgram, normalized⟩ := groundable.exists_normalized le
  have splits := splitRules_splits le less names.newName_injective program.rules 0 normalized.normal
  set typed := (splitRules names.newName le less program.rules 0).1 with isTyped
  obtain ⟨extended, agrees, rulesSized⟩ := splits.rewrites.sized _ normalized.rulesSized normalized.fresh.rules
  have normalProgram : NormalProgram extended program.facts typed := by
    refine ⟨splits.normal, fun fact isFact => ?_, fun rule isRule => ?_, fun rule isRule => ?_⟩
    · rw [agrees _ (normalized.fresh.facts fact isFact)]
      exact normalized.factsSized fact isFact
    · exact (rulesSized rule.rule ⟨rule, isRule, rfl⟩).effect
    · exact (rulesSized rule.rule ⟨rule, isRule, rfl⟩).conditions
  have preserves : ∀ atom, Old names atom.predicate →
      (LeastModelWithin (objectsOf facts) {fact | fact ∈ facts} {rule | rule ∈ rules} atom ↔
        LeastModel {fact | fact ∈ program.facts} (ruleSet typed) atom) := by
    intro atom isOld
    rw [normalized.preserves atom isOld.1]
    have split := splits.rewrites.preserves program.factSet ∅ (by rw [Set.union_empty]; exact normalized.fresh) atom isOld.2
    rw [Set.union_empty, Set.union_empty] at split
    exact split
  obtain ⟨bound, enough⟩ := computeModel_takesConsequences str normalProgram (convertRules_isSome splits.converts)
  refine ⟨program, bound, isProgram, fun fuel isEnough => ?_⟩
  obtain ⟨computed, isModel, nodup, noFacts, follows⟩ := enough fuel isEnough
  obtain ⟨derived, rfl, distinct, notFacts, isModelIff⟩ := exists_computed splits.normal nodup noFacts follows
  refine ⟨derived, ?_, distinct, notFacts, ?_, ?_⟩
  · rw [explore_eq_some isProgram, isModel, List.map_append]
  · exact fun atom isOld inModel => (isModelIff atom).mpr (looseModel_of_leastModel ((preserves atom isOld).mp inModel))
  · intro comparable atom isComputed isOld
    have keepsShared := splits.rewrites.keepsShared (normalized.keepsShared comparable)
    refine (preserves atom isOld).mpr (leastModel_of_looseModel ?_ ((isModelIff atom).mp isComputed))
    exact fun rule isRule => keepsShared rule.rule ⟨rule, isRule, rfl⟩

/-- Repeated variables are equated, and the free variable ranges over the objects. -/
theorem explore_pairsObjects :
    ∃ program bound, ∀ fuel ≥ bound, ∃ derived,
      explore prologNames (fun _ _ => true) (fun _ _ => false) Atom.predicate fuel [⟨"p", ["a"]⟩, ⟨"=", ["a", "a"]⟩]
          [⟨[⟨"p", [.var "?x"]⟩], ⟨"q", [.var "?x", .var "?x", .var "?y"]⟩⟩] =
        some ((sortFactAtoms Atom.predicate program ++ derived).map factAtom) ∧ ⟨"q", ["a", "a", "a"]⟩ ∈ program ++ derived := by
  have groundable : Groundable prologNames (fun predicate => if predicate = "p" then 1 else if predicate = "=" then 2 else 3)
      [(⟨"p", ["a"]⟩ : Atom String String), ⟨"=", ["a", "a"]⟩]
      [⟨[⟨"p", [.var "?x"]⟩], ⟨"q", [.var "?x", .var "?x", .var "?y"]⟩⟩] := by
    have isOld : ∀ predicate, predicate = "p" ∨ predicate = "=" ∨ predicate = "q" → Old prologNames predicate := by
      rintro predicate (rfl | rfl | rfl) <;> exact ⟨by decide, fun number _ => ne_pseudoPredicate (by decide) number⟩
    have objects : ∀ obj, obj ∈ objectsOf [(⟨"p", ["a"]⟩ : Atom String String), ⟨"=", ["a", "a"]⟩] ↔ obj = "a" := by
      simp [objectsOf]
    constructor
    · rintro fact isFact
      simp only [List.mem_cons, List.not_mem_nil, or_false] at isFact
      rcases isFact with rfl | rfl <;> exact isOld _ (by simp)
    · simp only [List.mem_singleton, forall_eq]
      rintro predicate (rfl | ⟨condition, isCondition, rfl⟩)
      · exact isOld _ (by simp)
      · obtain rfl := List.mem_singleton.mp isCondition
        exact isOld _ (by simp)
    · simp only [List.mem_singleton, forall_eq]
      have plain : ∀ name, name = "?x" ∨ name = "?y" → Plain prologNames name := by
        rintro name (rfl | rfl) <;> exact ne_renamedVariable (by decide)
      intro name occurs
      refine plain name ?_
      simp only [occursIn_cons, not_occursIn_nil, List.mem_cons, Term.var.injEq, List.not_mem_nil, or_false] at occurs
      tauto
    · intro args
      simp [objects, prologNames]
    · simp [prologNames]
    · simp [objects]
    · simp
    · simp only [List.mem_singleton, forall_eq]
      exact ⟨by decide, by simp⟩
    · decide
  obtain ⟨program, bound, _, enough⟩ := explore_findsLeastModel groundable (fun _ _ => true) (fun _ _ => false) Atom.predicate
  refine ⟨program.facts, bound, fun fuel isEnough => ?_⟩
  obtain ⟨derived, isModel, _, _, complete, _⟩ := enough fuel isEnough
  refine ⟨derived, isModel, complete _ ⟨by decide, fun number _ => ne_pseudoPredicate (by decide) number⟩ ?_⟩
  refine LeastModelWithin.rule (Set.mem_ofPred.mpr (List.mem_singleton_self _)) (fun _ => "a") ?_ ?_
  · intro name _ _
    exact ⟨⟨"p", ["a"]⟩, by simp, by simp⟩
  · intro condition isCondition
    obtain rfl := List.mem_singleton.mp isCondition
    exact .fact (by simp [Atom.ground])

end NormalForm

end PrologProgram

end CutPlan.Translate
