import CutPlan.Translate.AxiomLayers
import CutPlan.Translate.AxiomSimplification

/-! # The axioms that change an initial value

An atom that is needed only negated is initially true, and the axioms that change it are the negation of
its definition; any other needed atom is initially false and keeps its definition.
-/

namespace CutPlan.Translate.AxiomRules

open CutPlan.Lib

variable {Atom : Type}

/-! ## Axioms as a logic program -/

def program (axioms : List (PropositionalAxiom Atom)) : List (Clause Atom) :=
  axioms.map fun rule => { head := rule.effect.atom, body := rule.condition }

theorem isHead_iff {axioms : List (PropositionalAxiom Atom)} {atom : Atom} :
    LogicProgram.IsHead (program axioms) atom ↔ ∃ rule ∈ axioms, rule.effect.atom = atom := by
  simp [LogicProgram.IsHead, program]

/-- One of the bodies for the atom is true. -/
def Defined (axioms : List (PropositionalAxiom Atom)) (valuation : Atom → Bool) (atom : Atom) : Prop :=
  ∃ rule ∈ axioms, rule.effect.atom = atom ∧ bodyHolds valuation rule.condition = true

theorem defined_iff_model {axioms : List (PropositionalAxiom Atom)} {base model : Atom → Bool}
    (isModel : LogicProgram.IsModel (program axioms) base model) {atom : Atom}
    (isHead : LogicProgram.IsHead (program axioms) atom) :
    Defined axioms model atom ↔ model atom = true := by
  constructor
  · rintro ⟨rule, isRule, rfl, holds⟩
    exact isModel.of_body (List.mem_map_of_mem isRule) holds
  · intro isTrue
    obtain ⟨clause, isClause, same, holds⟩ := isModel.body_of_true isHead isTrue
    obtain ⟨rule, isRule, rfl⟩ := List.mem_map.mp isClause
    exact ⟨rule, isRule, same, holds⟩

variable [DecidableEq Atom]

theorem isAxiomLiteral_iff_isHead {axioms : List (PropositionalAxiom Atom)} {literal : Literal Atom} :
    isAxiomLiteral axioms literal = true ↔ LogicProgram.IsHead (program axioms) literal.atom :=
  isAxiomLiteral_iff.trans isHead_iff.symm

/-! ## Recursion -/

section Recursion

variable (hash : Literal Atom → ℤ) (axioms : List (PropositionalAxiom Atom))

/-- The axioms of an atom without duplicates and dominated ones. -/
def definition (atom : Atom) : List (PropositionalAxiom Atom) :=
  simplify hash (getAxiomsByAtom axioms atom)

def Uses (atom condition : Atom) : Prop :=
  ∃ rule ∈ definition hash axioms atom, ∃ literal ∈ rule.condition, literal.atom = condition

def OnlyNegated (needed : Literal Atom → Prop) (atom : Atom) : Prop :=
  needed { atom := atom, negated := true } ∧ ¬ needed { atom := atom, negated := false }

/-- A definition that the atom depends on has a literal whose atom can make it true, in the definition
or in its negation, without having changed. -/
def ReadsDefault (needed : Literal Atom → Prop) (atom : Atom) : Prop :=
  ∃ user, Relation.ReflTransGen (Uses hash axioms) atom user ∧
    ∃ rule ∈ definition hash axioms user, ∃ literal ∈ rule.condition,
      (literal.negated = true ↔ (OnlyNegated needed user ↔ OnlyNegated needed literal.atom))

/-- Needed atoms that depend on themselves are needed without negation and stay below every literal that
reads a default. -/
def RecursionSafe (needed : Literal Atom → Prop) : Prop :=
  ∀ atom negated, needed { atom := atom, negated := negated } →
    Relation.TransGen (Uses hash axioms) atom atom →
    needed { atom := atom, negated := false } ∧ ¬ ReadsDefault hash axioms needed atom

end Recursion

/-- A set of literals that contains what the bodies of its literals need. -/
structure Closed (axioms : List (PropositionalAxiom Atom)) (necessary : List (Literal Atom)) : Prop where
  derived : ∀ literal ∈ necessary, LogicProgram.IsHead (program axioms) literal.atom
  body : ∀ needed ∈ necessary, ∀ rule ∈ axioms, rule.effect.atom = needed.atom →
    ∀ literal ∈ rule.condition, LogicProgram.IsHead (program axioms) literal.atom →
    (if needed.negated then literal.negate else literal) ∈ necessary
  /-- An axiom derives a positive literal. -/
  positive : ∀ rule ∈ axioms, rule.effect.negated = false

section Changing

variable {hash : Literal Atom → ℤ} {axioms : List (PropositionalAxiom Atom)}
  {necessary : List (Literal Atom)}

theorem mem_getAxiomInit (closed : Closed axioms necessary) {atom : Atom} :
    atom ∈ getAxiomInit axioms necessary ↔ OnlyNegated (· ∈ necessary) atom := by
  simp only [getAxiomInit, List.mem_filter, List.mem_dedup, decide_eq_true_eq, OnlyNegated]
  constructor
  · rintro ⟨_, notPositive, negated⟩
    exact ⟨negated, notPositive⟩
  · rintro ⟨negated, notPositive⟩
    obtain ⟨rule, isRule, same⟩ := isHead_iff.mp (closed.derived _ negated)
    exact ⟨List.mem_map.mpr ⟨rule, isRule, same⟩, notPositive, negated⟩

theorem mem_definition (closed : Closed axioms necessary) {atom : Atom}
    {rule : PropositionalAxiom Atom} (member : rule ∈ definition hash axioms atom) :
    rule.effect = { atom := atom, negated := false } ∧ ∃ original ∈ axioms,
      original.effect.atom = atom ∧
        ∀ literal, literal ∈ rule.condition ↔ literal ∈ original.condition := by
  obtain ⟨original, isOriginal, sameEffect, sameLiterals⟩ := mem_simplify member
  obtain ⟨isAxiom, sameAtom⟩ := List.mem_filter.mp isOriginal
  rw [decide_eq_true_eq] at sameAtom
  refine ⟨?_, original, isAxiom, sameAtom, sameLiterals⟩
  have isPositive := closed.positive original isAxiom
  rw [sameEffect]
  cases effect : original.effect with
  | mk effectAtom negated =>
    rw [effect] at sameAtom isPositive
    simp_all

theorem definition_holds_iff (hash : Literal Atom → ℤ) (valuation : Atom → Bool) (atom : Atom) :
    (∃ rule ∈ definition hash axioms atom, bodyHolds valuation rule.condition = true) ↔
      Defined axioms valuation atom := by
  rw [definition, simplify_holds_iff]
  simp only [getAxiomsByAtom, List.mem_filter, decide_eq_true_eq, Defined, and_assoc]

theorem definition_ne_nil (hash : Literal Atom → ℤ) {atom : Atom}
    (isHead : LogicProgram.IsHead (program axioms) atom) :
    definition hash axioms atom ≠ [] := by
  obtain ⟨rule, isRule, same⟩ := isHead_iff.mp isHead
  have ofAtom : rule ∈ getAxiomsByAtom axioms atom :=
    List.mem_filter.mpr ⟨isRule, decide_eq_true same⟩
  obtain ⟨kept, isKept, _⟩ := exists_simplified hash ofAtom
  exact List.ne_nil_of_mem isKept

/-- The changing axioms of an atom. -/
theorem changing_iff (hash : Literal Atom → ℤ) (closed : Closed axioms necessary) {atom : Atom}
    {rule : PropositionalAxiom Atom} :
    rule ∈ computeNegativeAxioms hash axioms necessary ∧ rule.effect.atom = atom ∧
        changesInit (getAxiomInit axioms necessary) rule = true ↔
      if atom ∈ getAxiomInit axioms necessary then rule ∈ negate hash (definition hash axioms atom)
      else { atom := atom, negated := false } ∈ necessary ∧ rule ∈ definition hash axioms atom := by
  have negated_effect {atom : Atom} (member : rule ∈ negate hash (definition hash axioms atom)) :
      rule.effect = { atom := atom, negated := true } :=
    (mem_negate (fun _ isRule => (mem_definition closed isRule).1) member).1
  constructor
  · rintro ⟨member, rfl, changes⟩
    obtain ⟨⟨needed, negated⟩, isNeeded, fromNeeded⟩ := List.mem_flatMap.mp member
    cases negated with
    | true =>
      have fromNeeded : rule ∈ negate hash (definition hash axioms needed) := fromNeeded
      have effect := negated_effect fromNeeded
      rw [changesInit, effect] at changes
      rw [effect]
      rw [if_pos (by simpa using changes)]
      exact fromNeeded
    | false =>
      have fromNeeded : rule ∈ definition hash axioms needed := fromNeeded
      have effect := (mem_definition closed fromNeeded).1
      rw [changesInit, effect] at changes
      rw [effect, if_neg (by simpa using changes)]
      exact ⟨isNeeded, fromNeeded⟩
  · by_cases isInit : atom ∈ getAxiomInit axioms necessary
    · rw [if_pos isInit]
      intro member
      have effect := negated_effect member
      refine ⟨List.mem_flatMap.mpr ⟨{ atom := atom, negated := true }, ?_, member⟩, ?_, ?_⟩
      · exact ((mem_getAxiomInit closed).mp isInit).1
      · rw [effect]
      · simp [changesInit, effect, isInit]
    · rw [if_neg isInit]
      rintro ⟨isNeeded, member⟩
      have effect := (mem_definition closed member).1
      refine ⟨List.mem_flatMap.mpr ⟨{ atom := atom, negated := false }, isNeeded, member⟩, ?_, ?_⟩
      · rw [effect]
      · simp [changesInit, effect, isInit]

theorem changing_necessary (closed : Closed axioms necessary) {rule : PropositionalAxiom Atom}
    (member : rule ∈ computeNegativeAxioms hash axioms necessary)
    (changes : changesInit (getAxiomInit axioms necessary) rule = true) :
    { atom := rule.effect.atom, negated := decide (rule.effect.atom ∈ getAxiomInit axioms necessary) } ∈
      necessary := by
  have changing := (changing_iff hash closed).mp ⟨member, rfl, changes⟩
  by_cases isInit : rule.effect.atom ∈ getAxiomInit axioms necessary
  · rw [decide_eq_true isInit]
    exact ((mem_getAxiomInit closed).mp isInit).1
  · rw [if_neg isInit] at changing
    rw [decide_eq_false isInit]
    exact changing.1

/-- A literal of a changing axiom is one of the definition, or its complement if the atom is initially
true. -/
theorem changing_literal (closed : Closed axioms necessary) {rule : PropositionalAxiom Atom}
    (member : rule ∈ computeNegativeAxioms hash axioms necessary)
    (changes : changesInit (getAxiomInit axioms necessary) rule = true)
    {literal : Literal Atom} (isLiteral : literal ∈ rule.condition) :
    ∃ source ∈ definition hash axioms rule.effect.atom,
      (if rule.effect.atom ∈ getAxiomInit axioms necessary then literal.negate else literal) ∈
        source.condition := by
  have changing := (changing_iff hash closed).mp ⟨member, rfl, changes⟩
  by_cases isInit : rule.effect.atom ∈ getAxiomInit axioms necessary
  · rw [if_pos isInit] at changing ⊢
    exact (mem_negate (fun _ isRule => (mem_definition closed isRule).1) changing).2 literal isLiteral
  · rw [if_neg isInit] at changing ⊢
    exact ⟨rule, changing.2, isLiteral⟩

theorem changing_literal_necessary (closed : Closed axioms necessary)
    {rule : PropositionalAxiom Atom} (member : rule ∈ computeNegativeAxioms hash axioms necessary)
    (changes : changesInit (getAxiomInit axioms necessary) rule = true)
    {literal : Literal Atom} (isLiteral : literal ∈ rule.condition)
    (isHead : LogicProgram.IsHead (program axioms) literal.atom) : literal ∈ necessary := by
  obtain ⟨source, isSource, inSource⟩ := changing_literal closed member changes isLiteral
  obtain ⟨_, original, isOriginal, sameAtom, sameLiterals⟩ := mem_definition closed isSource
  have needs := closed.body _ (changing_necessary closed member changes) original isOriginal sameAtom _
    ((sameLiterals _).mp inSource)
  by_cases isInit : rule.effect.atom ∈ getAxiomInit axioms necessary
  · simpa [isInit] using needs (by simpa [isInit] using isHead)
  · simpa [isInit] using needs (by simpa [isInit] using isHead)

/-- A changing axiom of a needed atom fires if the definition contradicts the initial value. -/
theorem changing_holds_iff (closed : Closed axioms necessary) {atom : Atom} {negated : Bool}
    (isNeeded : { atom := atom, negated := negated } ∈ necessary) (valuation : Atom → Bool) :
    (∃ rule ∈ computeNegativeAxioms hash axioms necessary, rule.effect.atom = atom ∧
        changesInit (getAxiomInit axioms necessary) rule = true ∧
        bodyHolds valuation rule.condition = true) ↔
      (Defined axioms valuation atom ↔ atom ∉ getAxiomInit axioms necessary) := by
  have isHead := closed.derived _ isNeeded
  have fires_iff : (∃ rule ∈ computeNegativeAxioms hash axioms necessary, rule.effect.atom = atom ∧
        changesInit (getAxiomInit axioms necessary) rule = true ∧
        bodyHolds valuation rule.condition = true) ↔
      ∃ rule, (if atom ∈ getAxiomInit axioms necessary then
          rule ∈ negate hash (definition hash axioms atom)
        else { atom := atom, negated := false } ∈ necessary ∧ rule ∈ definition hash axioms atom) ∧
        bodyHolds valuation rule.condition = true := by
    simp only [← changing_iff hash closed, and_assoc]
  rw [fires_iff]
  by_cases isInit : atom ∈ getAxiomInit axioms necessary
  · simp only [isInit, if_true, not_true_eq_false, iff_false]
    rw [negate_holds_iff (definition_ne_nil hash isHead), ← definition_holds_iff hash]
    simp
  · have positive : { atom := atom, negated := false } ∈ necessary := by
      rw [mem_getAxiomInit closed, OnlyNegated, not_and_not_right] at isInit
      cases negated with
      | true => exact isInit isNeeded
      | false => exact isNeeded
    simp only [isInit, if_false, not_false_eq_true, iff_true, positive, true_and]
    exact definition_holds_iff hash valuation atom

/-! ## Recursion of the changing axioms -/

theorem mem_dependsOn {changed : List (PropositionalAxiom Atom)} {axiomInit : List Atom} {atom : Atom}
    {edge : Atom × ℕ} :
    edge ∈ dependsOn changed axiomInit atom ↔ ∃ rule ∈ changed, changesInit axiomInit rule = true ∧
      rule.effect.atom = atom ∧ ∃ literal ∈ rule.condition,
        (literal.atom, bonus axiomInit literal) = edge := by
  simp only [dependsOn, List.mem_dedup, List.mem_flatMap, List.mem_filter, Bool.and_eq_true,
    decide_eq_true_eq, List.mem_map, and_assoc]

theorem uses_of_dependsOn (closed : Closed axioms necessary) {atom condition : Atom}
    (depends : DependsOn (dependsOn (computeNegativeAxioms hash axioms necessary)
      (getAxiomInit axioms necessary)) atom condition) : Uses hash axioms atom condition := by
  obtain ⟨_, isEdge⟩ := depends
  obtain ⟨rule, isRule, changes, rfl, literal, isLiteral, same⟩ := mem_dependsOn.mp isEdge
  obtain ⟨source, isSource, inSource⟩ := changing_literal closed isRule changes isLiteral
  refine ⟨source, isSource, _, inSource, ?_⟩
  rw [Prod.mk.injEq] at same
  split
  · exact same.1
  · exact same.1

theorem readsDefault_of_usesBonus (closed : Closed axioms necessary) {atom : Atom}
    (usesBonus : UsesBonus (dependsOn (computeNegativeAxioms hash axioms necessary)
      (getAxiomInit axioms necessary)) atom) : ReadsDefault hash axioms (· ∈ necessary) atom := by
  obtain ⟨user, reaches, edge, isEdge, positive⟩ := usesBonus
  obtain ⟨rule, isRule, changes, rfl, literal, isLiteral, rfl⟩ := mem_dependsOn.mp isEdge
  obtain ⟨source, isSource, inSource⟩ := changing_literal closed isRule changes isLiteral
  refine ⟨_, reaches.lift id fun _ _ => uses_of_dependsOn closed, source, isSource, _,
    inSource, ?_⟩
  have asks : (!literal.negated) = decide (literal.atom ∈ getAxiomInit axioms necessary) := by
    by_contra differs
    simp [bonus, differs] at positive
  simp only [← mem_getAxiomInit closed]
  by_cases userInit : rule.effect.atom ∈ getAxiomInit axioms necessary <;>
    by_cases literalInit : literal.atom ∈ getAxiomInit axioms necessary <;>
    simp_all

theorem recursionFree_of_safe (closed : Closed axioms necessary)
    (safe : RecursionSafe hash axioms (· ∈ necessary)) :
    RecursionFree (dependsOn (computeNegativeAxioms hash axioms necessary)
      (getAxiomInit axioms necessary)) := by
  intro atom recursive usesBonus
  obtain ⟨condition, ⟨_, isEdge⟩, _⟩ := Relation.TransGen.head'_iff.mp recursive
  obtain ⟨rule, isRule, changes, rfl, _⟩ := mem_dependsOn.mp isEdge
  exact (safe _ _ (changing_necessary closed isRule changes)
    (recursive.lift id fun _ _ => uses_of_dependsOn closed)).2
    (readsDefault_of_usesBonus closed usesBonus)

end Changing

end CutPlan.Translate.AxiomRules
