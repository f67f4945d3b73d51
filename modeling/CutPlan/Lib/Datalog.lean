import CutPlan.Lib.Saturation
import Mathlib.Data.Set.Insert

/-! # Datalog programs

Facts and rules over atoms whose arguments are variables or objects.  A rule derives the instances of its
effect under all values of its variables for which the instances of its conditions have been derived.  A part
of the conditions of a rule can be moved to a rule of its own, whose effect has a new predicate and keeps the
variables that are used elsewhere: the other predicates keep their atoms.
-/

namespace CutPlan.Lib

inductive Term (Var Obj : Type*) where
  | var (name : Var)
  | object (object : Obj)
  deriving DecidableEq, Repr

/-- Atoms of programs have terms as arguments, facts have objects. -/
structure Atom (Pred Argument : Type*) where
  predicate : Pred
  args : List Argument
  deriving DecidableEq, Repr

structure DatalogRule (Pred Var Obj : Type*) where
  conditions : List (Atom Pred (Term Var Obj))
  effect : Atom Pred (Term Var Obj)
  deriving DecidableEq, Repr

variable {Pred Var Obj : Type*}

abbrev Valuation (Var Obj : Type*) := Var → Obj

namespace Term

def value (valuation : Valuation Var Obj) : Term Var Obj → Obj
  | .var name => valuation name
  | .object known => known

@[simp] theorem value_var (valuation : Valuation Var Obj) (name : Var) :
    (var name : Term Var Obj).value valuation = valuation name := rfl

@[simp] theorem value_object (valuation : Valuation Var Obj) (known : Obj) :
    (object known : Term Var Obj).value valuation = known := rfl

end Term

namespace Atom

/-- The instance of an atom under values of its variables. -/
def ground (valuation : Valuation Var Obj) (atom : Atom Pred (Term Var Obj)) :
    Atom Pred Obj where
  predicate := atom.predicate
  args := atom.args.map (Term.value valuation)

@[simp] theorem ground_predicate (valuation : Valuation Var Obj)
    (atom : Atom Pred (Term Var Obj)) : (atom.ground valuation).predicate = atom.predicate := rfl

/-- An instance depends on the values of the variables of the atom. -/
theorem ground_congr {atom : Atom Pred (Term Var Obj)} {first second : Valuation Var Obj}
    (same : ∀ name, .var name ∈ atom.args → first name = second name) :
    atom.ground first = atom.ground second := by
  have sameArgs : atom.args.map (Term.value first) = atom.args.map (Term.value second) := by
    apply List.map_congr_left
    intro argument member
    cases argument with
    | var name => exact same name member
    | object known => rfl
  simp only [ground, sameArgs]

/-- Equal instances give the variables of the atom the same values. -/
theorem eq_of_ground_eq {atom : Atom Pred (Term Var Obj)} {first second : Valuation Var Obj}
    (same : atom.ground first = atom.ground second) {name : Var} (occurs : .var name ∈ atom.args) :
    first name = second name := by
  have sameArgs : atom.args.map (Term.value first) = atom.args.map (Term.value second) :=
    congrArg Atom.args same
  exact List.map_inj_left.mp sameArgs (Term.var name) occurs

end Atom

/-- The variable occurs in one of the atoms. -/
def OccursIn (name : Var) (atoms : List (Atom Pred (Term Var Obj))) : Prop :=
  ∃ atom ∈ atoms, .var name ∈ atom.args

namespace DatalogRule

/-- A ground instance of the rule. -/
def Infers (rule : DatalogRule Pred Var Obj) (premises : List (Atom Pred Obj))
    (conclusion : Atom Pred Obj) : Prop :=
  ∃ valuation : Valuation Var Obj,
    premises = rule.conditions.map (Atom.ground valuation) ∧ conclusion = rule.effect.ground valuation

/-- The rule has an atom with the predicate. -/
def Mentions (rule : DatalogRule Pred Var Obj) (predicate : Pred) : Prop :=
  rule.effect.predicate = predicate ∨ ∃ condition ∈ rule.conditions, condition.predicate = predicate

end DatalogRule

/-- The instances of all rules. -/
def InfersBy (rules : Set (DatalogRule Pred Var Obj)) (premises : List (Atom Pred Obj))
    (conclusion : Atom Pred Obj) : Prop :=
  ∃ rule ∈ rules, rule.Infers premises conclusion

/-- The least model of the facts and the rules. -/
def LeastModel (facts : Set (Atom Pred Obj)) (rules : Set (DatalogRule Pred Var Obj)) :
    Atom Pred Obj → Prop :=
  Follows facts (InfersBy rules)

namespace LeastModel

variable {facts : Set (Atom Pred Obj)} {rules moreRules : Set (DatalogRule Pred Var Obj)}

theorem fact {atom : Atom Pred Obj} (isFact : atom ∈ facts) : LeastModel facts rules atom :=
  .given isFact

theorem rule {rule : DatalogRule Pred Var Obj} (isRule : rule ∈ rules)
    (valuation : Valuation Var Obj)
    (conditions : ∀ condition ∈ rule.conditions, LeastModel facts rules (condition.ground valuation)) :
    LeastModel facts rules (rule.effect.ground valuation) := by
  apply Follows.inferred ⟨rule, isRule, valuation, rfl, rfl⟩
  simpa [LeastModel] using conditions

/-- Induction over derivations. -/
theorem least (closed : Set (Atom Pred Obj)) (hasFacts : facts ⊆ closed)
    (isClosed : ∀ rule ∈ rules, ∀ valuation, (∀ condition ∈ rule.conditions, condition.ground valuation ∈ closed) →
      rule.effect.ground valuation ∈ closed)
    {atom : Atom Pred Obj} (isDerived : LeastModel facts rules atom) : atom ∈ closed := by
  refine Follows.least closed hasFacts ?_ isDerived
  rintro premises conclusion ⟨rule, isRule, valuation, rfl, rfl⟩ inClosed
  apply isClosed rule isRule valuation
  simpa using inClosed

theorem mono {moreFacts : Set (Atom Pred Obj)}
    (factsDerived : ∀ fact ∈ facts, LeastModel moreFacts moreRules fact)
    (rulesDerived : ∀ rule ∈ rules, ∀ valuation,
      (∀ condition ∈ rule.conditions, LeastModel moreFacts moreRules (condition.ground valuation)) →
        LeastModel moreFacts moreRules (rule.effect.ground valuation))
    {atom : Atom Pred Obj} (isDerived : LeastModel facts rules atom) :
    LeastModel moreFacts moreRules atom :=
  isDerived.least {atom | LeastModel moreFacts moreRules atom} factsDerived rulesDerived

/-- A predicate that no rule derives has only its facts. -/
theorem mem_facts_of_noRule {atom : Atom Pred Obj} (isDerived : LeastModel facts rules atom)
    (noRule : ∀ rule ∈ rules, rule.effect.predicate ≠ atom.predicate) : atom ∈ facts := by
  cases isDerived with
  | given isFact => exact isFact
  | inferred infers _ =>
    obtain ⟨rule, isRule, valuation, rfl, rfl⟩ := infers
    exact absurd rfl (noRule rule isRule)

end LeastModel

/-! ## Free variables of effects -/

/-- A ground instance of the rule with objects of the program for the variables that only the effect has. -/
def DatalogRule.InfersWithin (rule : DatalogRule Pred Var Obj) (objects : Set Obj)
    (premises : List (Atom Pred Obj)) (conclusion : Atom Pred Obj) : Prop :=
  ∃ valuation : Valuation Var Obj,
    (∀ name, .var name ∈ rule.effect.args → ¬ OccursIn name rule.conditions → valuation name ∈ objects) ∧
      premises = rule.conditions.map (Atom.ground valuation) ∧ conclusion = rule.effect.ground valuation

def LeastModelWithin (objects : Set Obj) (facts : Set (Atom Pred Obj))
    (rules : Set (DatalogRule Pred Var Obj)) : Atom Pred Obj → Prop :=
  Follows facts fun premises conclusion => ∃ rule ∈ rules, rule.InfersWithin objects premises conclusion

namespace LeastModelWithin

variable {objects : Set Obj} {facts : Set (Atom Pred Obj)}
  {rules : Set (DatalogRule Pred Var Obj)}

theorem fact {atom : Atom Pred Obj} (isFact : atom ∈ facts) : LeastModelWithin objects facts rules atom :=
  .given isFact

theorem rule {rule : DatalogRule Pred Var Obj} (isRule : rule ∈ rules)
    (valuation : Valuation Var Obj)
    (within : ∀ name, .var name ∈ rule.effect.args → ¬ OccursIn name rule.conditions → valuation name ∈ objects)
    (conditions : ∀ condition ∈ rule.conditions, LeastModelWithin objects facts rules (condition.ground valuation)) :
    LeastModelWithin objects facts rules (rule.effect.ground valuation) := by
  apply Follows.inferred ⟨rule, isRule, valuation, within, rfl, rfl⟩
  simpa [LeastModelWithin] using conditions

/-- Induction over derivations. -/
theorem least (closed : Set (Atom Pred Obj)) (hasFacts : facts ⊆ closed)
    (isClosed : ∀ rule ∈ rules, ∀ valuation,
      (∀ name, .var name ∈ rule.effect.args → ¬ OccursIn name rule.conditions → valuation name ∈ objects) →
        (∀ condition ∈ rule.conditions, condition.ground valuation ∈ closed) → rule.effect.ground valuation ∈ closed)
    {atom : Atom Pred Obj} (isDerived : LeastModelWithin objects facts rules atom) : atom ∈ closed := by
  refine Follows.least closed hasFacts ?_ isDerived
  rintro premises conclusion ⟨rule, isRule, valuation, within, rfl, rfl⟩ inClosed
  apply isClosed rule isRule valuation within
  simpa using inClosed

end LeastModelWithin

/-! ## Parts of rules -/

/-- The folded rule has the effect of the part in the place of its conditions. -/
structure Folds (whole part folded : DatalogRule Pred Var Obj)
    (others : List (Atom Pred (Term Var Obj))) : Prop where
  effect : folded.effect = whole.effect
  wholeConditions : ∀ condition, condition ∈ whole.conditions ↔ condition ∈ part.conditions ∨ condition ∈ others
  foldedConditions : ∀ condition, condition ∈ folded.conditions ↔ condition = part.effect ∨ condition ∈ others
  keepsShared : ∀ name, OccursIn name part.conditions →
    OccursIn name others ∨ .var name ∈ whole.effect.args → .var name ∈ part.effect.args

namespace Folds

variable {whole part folded : DatalogRule Pred Var Obj}
  {others : List (Atom Pred (Term Var Obj))} {facts : Set (Atom Pred Obj)}
  {rules : Set (DatalogRule Pred Var Obj)}

/-- The whole rule derives what the two rules derive together. -/
theorem derives_whole (folds : Folds whole part folded others) {atom : Atom Pred Obj}
    (isDerived : LeastModel facts (insert whole rules) atom) :
    LeastModel facts (insert part (insert folded rules)) atom := by
  apply isDerived.mono fun _ => .fact
  intro rule isRule valuation conditions
  cases isRule with
  | inr isOther => exact .rule (Set.mem_insert_of_mem _ (Set.mem_insert_of_mem _ isOther)) valuation conditions
  | inl isWhole =>
    subst isWhole
    rw [← folds.effect]
    apply LeastModel.rule (Set.mem_insert_of_mem _ (Set.mem_insert _ _)) valuation
    intro condition member
    cases (folds.foldedConditions condition).mp member with
    | inr isOther => exact conditions condition ((folds.wholeConditions condition).mpr (Or.inr isOther))
    | inl isPart =>
      subst isPart
      apply LeastModel.rule (Set.mem_insert _ _) valuation
      intro condition member
      exact conditions condition ((folds.wholeConditions condition).mpr (Or.inl member))

/-- Values for the part that agree with values for the other conditions on the variables that are kept. -/
theorem derives_of_part (folds : Folds whole part folded others) {forPart valuation : Valuation Var Obj}
    (partConditions : ∀ condition ∈ part.conditions,
      LeastModel facts (insert whole rules) (condition.ground forPart))
    (samePart : part.effect.ground forPart = part.effect.ground valuation)
    (otherConditions : ∀ condition ∈ others, LeastModel facts (insert whole rules) (condition.ground valuation)) :
    LeastModel facts (insert whole rules) (folded.effect.ground valuation) := by
  classical
  let merged : Valuation Var Obj := fun name =>
    if OccursIn name part.conditions then forPart name else valuation name
  have onPart : ∀ condition ∈ part.conditions, condition.ground merged = condition.ground forPart := by
    intro condition member
    apply Atom.ground_congr
    intro name occurs
    simp [merged, show OccursIn name part.conditions from ⟨condition, member, occurs⟩]
  have agrees : ∀ name, OccursIn name others ∨ .var name ∈ whole.effect.args →
      merged name = valuation name := by
    intro name elsewhere
    by_cases inPart : OccursIn name part.conditions
    · simp only [merged, inPart, if_true]
      exact Atom.eq_of_ground_eq samePart (folds.keepsShared name inPart elsewhere)
    · simp [merged, inPart]
  have onOthers : ∀ condition ∈ others, condition.ground merged = condition.ground valuation := by
    intro condition member
    apply Atom.ground_congr
    intro name occurs
    exact agrees name (Or.inl ⟨condition, member, occurs⟩)
  have onEffect : whole.effect.ground merged = whole.effect.ground valuation := by
    apply Atom.ground_congr
    intro name occurs
    exact agrees name (Or.inr occurs)
  rw [folds.effect, ← onEffect]
  apply LeastModel.rule (Set.mem_insert _ _) merged
  intro condition member
  cases (folds.wholeConditions condition).mp member with
  | inl inPart =>
    rw [onPart condition inPart]
    exact partConditions condition inPart
  | inr isOther =>
    rw [onOthers condition isOther]
    exact otherConditions condition isOther

/-- Atoms of the predicate of the part stand for values that make all its conditions true. -/
def Meaning (facts : Set (Atom Pred Obj)) (rules : Set (DatalogRule Pred Var Obj))
    (part : DatalogRule Pred Var Obj) : Set (Atom Pred Obj) :=
  {atom | (atom.predicate ≠ part.effect.predicate → LeastModel facts rules atom) ∧
    (atom.predicate = part.effect.predicate → ∃ valuation, part.effect.ground valuation = atom ∧
      ∀ condition ∈ part.conditions, LeastModel facts rules (condition.ground valuation))}

theorem mem_meaning_iff {atom : Atom Pred Obj} (isOld : atom.predicate ≠ part.effect.predicate) :
    atom ∈ Meaning facts rules part ↔ LeastModel facts rules atom := by
  simp [Meaning, isOld]

theorem ground_mem_meaning_iff {valuation : Valuation Var Obj} :
    part.effect.ground valuation ∈ Meaning facts rules part ↔
      ∃ forPart, part.effect.ground forPart = part.effect.ground valuation ∧
        ∀ condition ∈ part.conditions, LeastModel facts rules (condition.ground forPart) := by
  simp [Meaning]

/-- The predicate of the part must be new. -/
theorem derives_iff (folds : Folds whole part folded others)
    (newToFacts : ∀ fact ∈ facts, fact.predicate ≠ part.effect.predicate)
    (newToRules : ∀ rule ∈ insert whole rules, ¬ rule.Mentions part.effect.predicate)
    {atom : Atom Pred Obj} (isOld : atom.predicate ≠ part.effect.predicate) :
    LeastModel facts (insert whole rules) atom ↔ LeastModel facts (insert part (insert folded rules)) atom := by
  have newEffect : ∀ rule ∈ insert whole rules, rule.effect.predicate ≠ part.effect.predicate :=
    fun rule isRule same => newToRules rule isRule (Or.inl same)
  have newConditions : ∀ rule ∈ insert whole rules, ∀ condition ∈ rule.conditions,
      condition.predicate ≠ part.effect.predicate :=
    fun rule isRule condition member same => newToRules rule isRule (Or.inr ⟨condition, member, same⟩)
  constructor
  · exact folds.derives_whole
  · intro isDerived
    rw [← mem_meaning_iff isOld]
    apply isDerived.least
    · intro fact isFact
      exact (mem_meaning_iff (newToFacts fact isFact)).mpr (.fact isFact)
    · intro rule isRule valuation conditions
      rcases isRule with rfl | rfl | isOther
      · -- The part itself.
        refine ground_mem_meaning_iff.mpr ⟨valuation, rfl, fun condition member => ?_⟩
        have inWhole := (folds.wholeConditions condition).mpr (Or.inl member)
        exact (mem_meaning_iff (newConditions whole (Set.mem_insert _ _) condition inWhole)).mp
          (conditions condition member)
      · -- The folded rule: the values for the part and for the other conditions are merged.
        rw [mem_meaning_iff (by simpa [folds.effect] using newEffect whole (Set.mem_insert _ _))]
        have partHolds := conditions part.effect ((folds.foldedConditions _).mpr (Or.inl rfl))
        obtain ⟨forPart, samePart, partConditions⟩ := ground_mem_meaning_iff.mp partHolds
        apply folds.derives_of_part partConditions samePart
        intro condition member
        have inWhole := (folds.wholeConditions condition).mpr (Or.inr member)
        exact (mem_meaning_iff (newConditions whole (Set.mem_insert _ _) condition inWhole)).mp
          (conditions condition ((folds.foldedConditions _).mpr (Or.inr member)))
      · -- A rule that does not use the new predicate.
        have isRule := Set.mem_insert_of_mem whole isOther
        apply (mem_meaning_iff (newEffect rule isRule)).mpr
        apply LeastModel.rule isRule valuation
        intro condition member
        exact (mem_meaning_iff (newConditions rule isRule condition member)).mp (conditions condition member)

end Folds

end CutPlan.Lib
