import CutPlan.Translate.AxiomRules

/-! # Needed literals, simplified and negated axioms

The search for necessary literals finds the needed ones; simplification keeps the truth of the
disjunction of the bodies under every valuation, and negation complements it.
-/

namespace CutPlan.Translate.AxiomRules

open CutPlan.Lib

variable {Atom : Type} [DecidableEq Atom]

/-! ## Needed literals -/

theorem isAxiomLiteral_iff {axioms : List (PropositionalAxiom Atom)} {literal : Literal Atom} :
    isAxiomLiteral axioms literal = true ↔ ∃ rule ∈ axioms, rule.effect.atom = literal.atom := by
  simp [isAxiomLiteral]

/-- The derived literals that the goal, the constraint and the conditions of the operators need, with
the literals that their axioms need; where a negated literal is needed, so are the complements of the
literals in its axioms. -/
inductive Needed (axioms : List (PropositionalAxiom Atom)) (operators : List (PropositionalAction Atom))
    (goalList : List (Literal Atom)) (globalConstraint : Literal Atom) : Literal Atom → Prop
  | goal {literal : Literal Atom} : literal ∈ goalList → isAxiomLiteral axioms literal = true →
      Needed axioms operators goalList globalConstraint literal
  | constraint : isAxiomLiteral axioms globalConstraint = true →
      Needed axioms operators goalList globalConstraint globalConstraint
  | precondition {op : PropositionalAction Atom} {literal : Literal Atom} : op ∈ operators →
      literal ∈ op.precondition → isAxiomLiteral axioms literal = true →
      Needed axioms operators goalList globalConstraint literal
  | addCondition {op : PropositionalAction Atom} {effect : List (Literal Atom) × Atom}
      {literal : Literal Atom} : op ∈ operators → effect ∈ op.addEffects → literal ∈ effect.1 →
      isAxiomLiteral axioms literal = true →
      Needed axioms operators goalList globalConstraint literal
  | delCondition {op : PropositionalAction Atom} {effect : List (Literal Atom) × Atom}
      {literal : Literal Atom} : op ∈ operators → effect ∈ op.delEffects → literal ∈ effect.1 →
      isAxiomLiteral axioms literal = true →
      Needed axioms operators goalList globalConstraint literal.negate
  | body {needed literal : Literal Atom} {rule : PropositionalAxiom Atom} :
      Needed axioms operators goalList globalConstraint needed → rule ∈ axioms →
      rule.effect.atom = needed.atom → literal ∈ rule.condition →
      isAxiomLiteral axioms literal = true →
      Needed axioms operators goalList globalConstraint
        (if needed.negated then literal.negate else literal)

section Necessary

variable {axioms : List (PropositionalAxiom Atom)} {operators : List (PropositionalAction Atom)}
  {goalList : List (Literal Atom)} {globalConstraint : Literal Atom}

theorem mem_registerLiterals {literals : List (Literal Atom)} {negated : Bool}
    {registered : Literal Atom} :
    registered ∈ registerLiterals axioms literals negated ↔
      ∃ literal ∈ literals, isAxiomLiteral axioms literal = true ∧
        registered = if negated then literal.negate else literal := by
  simp only [registerLiterals, List.mem_map, List.mem_filter]
  constructor
  · rintro ⟨literal, ⟨member, derived⟩, rfl⟩
    exact ⟨literal, member, derived, rfl⟩
  · rintro ⟨literal, member, derived, rfl⟩
    exact ⟨literal, ⟨member, derived⟩, rfl⟩

theorem mem_registerAction {op : PropositionalAction Atom} {registered : Literal Atom} :
    registered ∈ registerAction axioms op ↔
      registered ∈ registerLiterals axioms op.precondition false ∨
        (∃ effect ∈ op.addEffects, registered ∈ registerLiterals axioms effect.1 false) ∨
        ∃ effect ∈ op.delEffects, registered ∈ registerLiterals axioms effect.1 true := by
  simp only [registerAction, List.mem_append, List.mem_flatMap, or_assoc]

theorem mem_registerBodies {literal registered : Literal Atom} :
    registered ∈ registerBodies axioms literal ↔ ∃ rule ∈ axioms,
      rule.effect.atom = literal.atom ∧
        registered ∈ registerLiterals axioms rule.condition literal.negated := by
  simp only [registerBodies, getAxiomsByAtom, List.mem_flatMap, List.mem_filter, decide_eq_true_eq,
    and_assoc]

/-- The derived atoms with both signs. -/
def axiomLiterals (axioms : List (PropositionalAxiom Atom)) : Finset (Literal Atom) :=
  (axioms.map fun rule => rule.effect.positive).toFinset ∪
    (axioms.map fun rule => rule.effect.positive.negate).toFinset

theorem mem_axiomLiterals {literal : Literal Atom} (derived : isAxiomLiteral axioms literal = true) :
    literal ∈ axiomLiterals axioms := by
  obtain ⟨rule, isRule, same⟩ := isAxiomLiteral_iff.mp derived
  simp only [axiomLiterals, Finset.mem_union, List.mem_toFinset, List.mem_map]
  cases literal with
  | mk atom negated =>
    subst same
    cases negated with
    | false => exact .inl ⟨rule, isRule, rfl⟩
    | true => exact .inr ⟨rule, isRule, rfl⟩

theorem axiomLiterals_card : (axiomLiterals axioms).card ≤ 2 * axioms.length := by
  have first := List.toFinset_card_le (axioms.map fun rule => rule.effect.positive)
  have second := List.toFinset_card_le (axioms.map fun rule => rule.effect.positive.negate)
  have both := Finset.card_union_le (axioms.map fun rule => rule.effect.positive).toFinset
    (axioms.map fun rule => rule.effect.positive.negate).toFinset
  rw [List.length_map] at first second
  unfold axiomLiterals
  omega

theorem registered_axiomLiteral {literals : List (Literal Atom)} {negated : Bool}
    {registered : Literal Atom} (member : registered ∈ registerLiterals axioms literals negated) :
    registered ∈ axiomLiterals axioms := by
  obtain ⟨literal, _, derived, rfl⟩ := mem_registerLiterals.mp member
  apply mem_axiomLiterals
  cases negated <;> exact derived

/-- The roots of the search. -/
def registeredRoots (axioms : List (PropositionalAxiom Atom))
    (operators : List (PropositionalAction Atom)) (goalList : List (Literal Atom))
    (globalConstraint : Literal Atom) : List (Literal Atom) :=
  (registerLiterals axioms goalList false ++ registerLiterals axioms [globalConstraint] false ++
    operators.flatMap (registerAction axioms)).dedup

theorem mem_registeredRoots {registered : Literal Atom} :
    registered ∈ registeredRoots axioms operators goalList globalConstraint ↔
      registered ∈ registerLiterals axioms goalList false ∨
        registered ∈ registerLiterals axioms [globalConstraint] false ∨
        ∃ op ∈ operators, registered ∈ registerAction axioms op := by
  simp only [registeredRoots, List.mem_dedup, List.mem_append, List.mem_flatMap, or_assoc]

theorem registeredRoots_within : ∀ root ∈ registeredRoots axioms operators goalList globalConstraint,
    root ∈ axiomLiterals axioms := by
  intro root member
  obtain goal | constraint | ⟨op, _, fromOp⟩ := mem_registeredRoots.mp member
  · exact registered_axiomLiteral goal
  · exact registered_axiomLiteral constraint
  · obtain pre | ⟨_, _, add⟩ | ⟨_, _, del⟩ := mem_registerAction.mp fromOp
    · exact registered_axiomLiteral pre
    · exact registered_axiomLiteral add
    · exact registered_axiomLiteral del

theorem needed_of_mem {literal : Literal Atom}
    (member : literal ∈
      computeNecessaryAxiomLiterals axioms operators goalList globalConstraint) :
    Needed axioms operators goalList globalConstraint literal := by
  have roots : ∀ root ∈ registeredRoots axioms operators goalList globalConstraint,
      Needed axioms operators goalList globalConstraint root := by
    intro root isRoot
    obtain goal | constraint | ⟨op, isOp, fromOp⟩ := mem_registeredRoots.mp isRoot
    · obtain ⟨literal, isGoal, derived, rfl⟩ := mem_registerLiterals.mp goal
      exact .goal isGoal derived
    · obtain ⟨literal, isConstraint, derived, rfl⟩ := mem_registerLiterals.mp constraint
      rw [List.mem_singleton] at isConstraint
      subst isConstraint
      exact .constraint derived
    · obtain pre | ⟨effect, isEffect, add⟩ | ⟨effect, isEffect, del⟩ := mem_registerAction.mp fromOp
      · obtain ⟨literal, isPre, derived, rfl⟩ := mem_registerLiterals.mp pre
        exact .precondition isOp isPre derived
      · obtain ⟨literal, isCond, derived, rfl⟩ := mem_registerLiterals.mp add
        exact .addCondition isOp isEffect isCond derived
      · obtain ⟨literal, isCond, derived, rfl⟩ := mem_registerLiterals.mp del
        exact .delCondition isOp isEffect isCond derived
  refine explore_sound _ (fun needed isNeeded registered fromBody => ?_) _ roots roots literal member
  obtain ⟨rule, isRule, same, isRegistered⟩ := mem_registerBodies.mp fromBody
  obtain ⟨literal, isLiteral, derived, rfl⟩ := mem_registerLiterals.mp isRegistered
  exact .body isNeeded isRule same isLiteral derived

theorem mem_of_needed {literal : Literal Atom}
    (needed : Needed axioms operators goalList globalConstraint literal) :
    literal ∈ computeNecessaryAxiomLiterals axioms operators goalList globalConstraint := by
  have edges : ∀ literal ∈ axiomLiterals axioms, ∀ registered ∈ registerBodies axioms literal,
      registered ∈ axiomLiterals axioms := by
    intro literal _ registered fromBody
    obtain ⟨_, _, _, isRegistered⟩ := mem_registerBodies.mp fromBody
    exact registered_axiomLiteral isRegistered
  have within : ∀ root ∈ registeredRoots axioms operators goalList globalConstraint,
      root ∈ axiomLiterals axioms := registeredRoots_within
  obtain ⟨explored, found⟩ :=
    explore_closed edges (List.nodup_dedup _) within axiomLiterals_card
  have isRoot (literal : Literal Atom)
      (member : literal ∈ registeredRoots axioms operators goalList globalConstraint) :
      literal ∈ computeNecessaryAxiomLiterals axioms operators goalList globalConstraint :=
    found literal member
  induction needed with
  | goal isGoal derived =>
    exact isRoot _ (mem_registeredRoots.mpr
      (.inl (mem_registerLiterals.mpr ⟨_, isGoal, derived, rfl⟩)))
  | constraint derived =>
    exact isRoot _ (mem_registeredRoots.mpr
      (.inr (.inl (mem_registerLiterals.mpr ⟨_, List.mem_singleton_self _, derived, rfl⟩))))
  | precondition isOp isPre derived =>
    exact isRoot _ (mem_registeredRoots.mpr (.inr (.inr ⟨_, isOp, mem_registerAction.mpr
      (.inl (mem_registerLiterals.mpr ⟨_, isPre, derived, rfl⟩))⟩)))
  | addCondition isOp isEffect isCond derived =>
    exact isRoot _ (mem_registeredRoots.mpr (.inr (.inr ⟨_, isOp, mem_registerAction.mpr
      (.inr (.inl ⟨_, isEffect, mem_registerLiterals.mpr ⟨_, isCond, derived, rfl⟩⟩))⟩)))
  | delCondition isOp isEffect isCond derived =>
    exact isRoot _ (mem_registeredRoots.mpr (.inr (.inr ⟨_, isOp, mem_registerAction.mpr
      (.inr (.inr ⟨_, isEffect, mem_registerLiterals.mpr ⟨_, isCond, derived, rfl⟩⟩))⟩)))
  | body _ isRule same isLiteral derived inductionHypothesis =>
    exact explored.closed _ inductionHypothesis (by simp) _ (mem_registerBodies.mpr
      ⟨_, isRule, same, mem_registerLiterals.mpr ⟨_, isLiteral, derived, rfl⟩⟩)

end Necessary

/-! ## Simplification -/

section Simplify

variable {hash : Literal Atom → ℤ} {axioms : List (PropositionalAxiom Atom)}

theorem mem_removeDuplicates {literals : List (Literal Atom)} {literal : Literal Atom} :
    literal ∈ removeDuplicates literals ↔ literal ∈ literals := by
  induction literals using removeDuplicates.induct with
  | case1 => rfl
  | case2 => rfl
  | case3 first literals inductionHypothesis =>
    rw [removeDuplicates, if_pos rfl, inductionHypothesis]
    simp
  | case4 first second literals different inductionHypothesis =>
    rw [removeDuplicates, if_neg different, List.mem_cons, inductionHypothesis]
    simp only [List.mem_cons]

theorem mem_sortCondition {rule : PropositionalAxiom Atom} {literal : Literal Atom} :
    literal ∈ (sortCondition hash rule).condition ↔ literal ∈ rule.condition := by
  rw [sortCondition, mem_removeDuplicates, List.mem_mergeSort]

/-- What the search for dominated axioms keeps: every axiom to skip is dominated by one that is not. -/
structure SkipsDominated (axioms : List (PropositionalAxiom Atom))
    (table : Literal Atom → List ℕ) (axiomsToSkip : List ℕ) : Prop where
  listed : ∀ literal, ∀ id ∈ table literal, ∃ rule, axioms[id]? = some rule ∧
    literal ∈ rule.condition
  dominated : ∀ id ∈ axiomsToSkip, ∃ rule keeper kept, axioms[id]? = some rule ∧
    axioms[keeper]? = some kept ∧ keeper ∉ axiomsToSkip ∧
      ∀ literal ∈ kept.condition, literal ∈ rule.condition

omit [DecidableEq Atom] in
theorem mem_foldl_filter {table : Literal Atom → List ℕ} {literals : List (Literal Atom)}
    {start : List ℕ} {id : ℕ}
    (member : id ∈ literals.foldl
      (fun dominated literal => dominated.filter (· ∈ table literal)) start) :
    id ∈ start ∧ ∀ literal ∈ literals, id ∈ table literal := by
  induction literals generalizing start with
  | nil => exact ⟨member, by simp⟩
  | cons literal literals inductionHypothesis =>
    obtain ⟨inStart, inOthers⟩ := inductionHypothesis member
    rw [List.mem_filter, decide_eq_true_eq] at inStart
    exact ⟨inStart.1, List.forall_mem_cons.mpr ⟨inStart.2, inOthers⟩⟩

theorem SkipsDominated.skip {table : Literal Atom → List ℕ} {axiomsToSkip dominated : List ℕ}
    (skips : SkipsDominated axioms table axiomsToSkip) {rule : PropositionalAxiom Atom} {id : ℕ}
    (isRule : axioms[id]? = some rule) (fresh : id ∉ axiomsToSkip) {first : Literal Atom}
    (subset : ∀ other ∈ dominated, ∀ literal ∈ rule.condition, other ∈ table literal)
    (nonempty : first ∈ rule.condition) :
    SkipsDominated axioms (Function.update table first dominated)
      (axiomsToSkip ++ dominated.filter (· ≠ id)) where
  listed := by
    intro literal other member
    by_cases same : literal = first
    · subst same
      rw [Function.update_self] at member
      exact skips.listed literal other (subset other member literal nonempty)
    · rw [Function.update_of_ne same] at member
      exact skips.listed literal other member
  dominated := by
    have dominates (other : ℕ) (member : other ∈ dominated) : ∃ otherRule,
        axioms[other]? = some otherRule ∧
          ∀ literal ∈ rule.condition, literal ∈ otherRule.condition := by
      obtain ⟨otherRule, isOther, _⟩ := skips.listed first other (subset other member first nonempty)
      refine ⟨otherRule, isOther, fun literal isLiteral => ?_⟩
      obtain ⟨sameRule, isSame, contains⟩ :=
        skips.listed literal other (subset other member literal isLiteral)
      rw [isOther, Option.some.injEq] at isSame
      exact isSame ▸ contains
    have kept : id ∉ axiomsToSkip ++ dominated.filter (· ≠ id) := by
      simp [fresh]
    intro other member
    cases List.mem_append.mp member with
    | inr new =>
      rw [List.mem_filter] at new
      obtain ⟨otherRule, isOther, contains⟩ := dominates other new.1
      exact ⟨otherRule, id, rule, isOther, isRule, kept, contains⟩
    | inl old =>
      obtain ⟨otherRule, keeper, keeperRule, isOther, isKeeper, keeperKept, contains⟩ :=
        skips.dominated other old
      by_cases isNew : keeper ∈ dominated.filter (· ≠ id)
      · -- the former keeper is skipped now, and the axiom dominates it
        rw [List.mem_filter] at isNew
        obtain ⟨sameRule, isSame, dominatesKeeper⟩ := dominates keeper isNew.1
        rw [isKeeper, Option.some.injEq] at isSame
        subst isSame
        exact ⟨otherRule, id, rule, isOther, isRule, kept, fun literal isLiteral =>
          contains literal (dominatesKeeper literal isLiteral)⟩
      · refine ⟨otherRule, keeper, keeperRule, isOther, isKeeper, ?_, contains⟩
        rw [List.mem_append, not_or]
        exact ⟨keeperKept, isNew⟩

theorem findDominated_ok {entries : List (PropositionalAxiom Atom × ℕ)}
    {table : Literal Atom → List ℕ} {axiomsToSkip result : List ℕ}
    (areAxioms : ∀ entry ∈ entries, axioms[entry.2]? = some entry.1)
    (skips : SkipsDominated axioms table axiomsToSkip)
    (finds : findDominated entries table axiomsToSkip = .ok result) :
    ∃ table, SkipsDominated axioms table result := by
  induction entries generalizing table axiomsToSkip with
  | nil =>
    cases finds
    exact ⟨table, skips⟩
  | cons entry entries inductionHypothesis =>
    rw [List.forall_mem_cons] at areAxioms
    rw [findDominated] at finds
    split at finds
    · exact inductionHypothesis areAxioms.2 skips finds
    · rename_i fresh
      split at finds
      · cases finds
      · rename_i first literals isCondition
        refine inductionHypothesis areAxioms.2 (skips.skip areAxioms.1 fresh ?_ ?_) finds
        · intro other member literal isLiteral
          obtain ⟨inFirst, inOthers⟩ := mem_foldl_filter member
          rw [isCondition] at isLiteral
          cases isLiteral with
          | head => exact inFirst
          | tail _ later => exact inOthers literal later
        · rw [isCondition]
          exact List.mem_cons_self

theorem findDominated_error {entries : List (PropositionalAxiom Atom × ℕ)}
    {table : Literal Atom → List ℕ} {axiomsToSkip : List ℕ} {rule : PropositionalAxiom Atom}
    (finds : findDominated entries table axiomsToSkip = .error rule) :
    rule ∈ entries.map Prod.fst ∧ rule.condition = [] := by
  induction entries generalizing table axiomsToSkip with
  | nil => cases finds
  | cons entry entries inductionHypothesis =>
    rw [findDominated] at finds
    split at finds
    · obtain ⟨member, empty⟩ := inductionHypothesis finds
      exact ⟨List.mem_cons_of_mem _ member, empty⟩
    · split at finds
      · rename_i empty
        cases finds
        exact ⟨List.mem_cons_self, empty⟩
      · obtain ⟨member, empty⟩ := inductionHypothesis finds
        exact ⟨List.mem_cons_of_mem _ member, empty⟩

theorem skipsDominated_start (axioms : List (PropositionalAxiom Atom)) :
    SkipsDominated axioms (axiomsByLiteral axioms) [] where
  listed := by
    intro literal id member
    simp only [axiomsByLiteral, List.mem_map, List.mem_filter, decide_eq_true_eq] at member
    obtain ⟨⟨rule, position⟩, ⟨isEntry, contains⟩, rfl⟩ := member
    exact ⟨rule, List.mk_mem_zipIdx_iff_getElem?.mp isEntry, contains⟩
  dominated := by simp

/-- A simplified axiom has the literals of one of the axioms. -/
theorem mem_simplify {rule : PropositionalAxiom Atom} (member : rule ∈ simplify hash axioms) :
    ∃ original ∈ axioms, rule.effect = original.effect ∧
      ∀ literal, literal ∈ rule.condition ↔ literal ∈ original.condition := by
  have isSorted : rule ∈ axioms.map (sortCondition hash) := by
    unfold simplify at member
    simp only at member
    split at member
    · rename_i found finds
      rw [List.mem_singleton] at member
      subst member
      have isEntry := (findDominated_error finds).1
      rwa [List.zipIdx_map_fst] at isEntry
    · obtain ⟨entry, isEntry, rfl⟩ := List.mem_map.mp member
      have isEntry := List.mem_map_of_mem (f := Prod.fst) (List.mem_filter.mp isEntry).1
      rwa [List.zipIdx_map_fst] at isEntry
  obtain ⟨original, isOriginal, rfl⟩ := List.mem_map.mp isSorted
  exact ⟨original, isOriginal, rfl, fun literal => mem_sortCondition⟩

/-- Every axiom keeps a simplified axiom that asks for no more than it does. -/
theorem exists_simplified (hash : Literal Atom → ℤ) {original : PropositionalAxiom Atom}
    (isOriginal : original ∈ axioms) :
    ∃ rule ∈ simplify hash axioms, ∀ literal ∈ rule.condition, literal ∈ original.condition := by
  have isSorted : sortCondition hash original ∈ axioms.map (sortCondition hash) :=
    List.mem_map_of_mem isOriginal
  unfold simplify
  simp only
  generalize axioms.map (sortCondition hash) = sorted at isSorted
  cases finds : findDominated sorted.zipIdx (axiomsByLiteral sorted) [] with
  | error rule =>
    refine ⟨rule, List.mem_singleton_self rule, ?_⟩
    rw [(findDominated_error finds).2]
    simp
  | ok axiomsToSkip =>
    obtain ⟨_, skips⟩ := findDominated_ok
      (fun entry member => List.mk_mem_zipIdx_iff_getElem?.mp member)
      (skipsDominated_start sorted) finds
    have isKept {id : ℕ} {rule : PropositionalAxiom Atom} (isRule : sorted[id]? = some rule)
        (kept : id ∉ axiomsToSkip) :
        rule ∈ (sorted.zipIdx.filter fun entry => entry.2 ∉ axiomsToSkip).map Prod.fst :=
      List.mem_map.mpr ⟨(rule, id), List.mem_filter.mpr
        ⟨List.mk_mem_zipIdx_iff_getElem?.mpr isRule, by simpa using kept⟩, rfl⟩
    obtain ⟨id, isRule⟩ := List.getElem?_of_mem isSorted
    by_cases skipped : id ∈ axiomsToSkip
    · obtain ⟨rule, keeper, kept, isSame, isKeeper, keeperKept, contains⟩ :=
        skips.dominated id skipped
      rw [isRule, Option.some.injEq] at isSame
      subst isSame
      exact ⟨kept, isKept isKeeper keeperKept, fun literal isLiteral =>
        mem_sortCondition.mp (contains literal isLiteral)⟩
    · exact ⟨_, isKept isRule skipped, fun literal => mem_sortCondition.mp⟩

/-- Simplification does not change when one of the bodies is true. -/
theorem simplify_holds_iff (valuation : Atom → Bool) :
    (∃ rule ∈ simplify hash axioms, bodyHolds valuation rule.condition = true) ↔
      ∃ rule ∈ axioms, bodyHolds valuation rule.condition = true := by
  constructor
  · rintro ⟨rule, member, holds⟩
    obtain ⟨original, isOriginal, _, same⟩ := mem_simplify member
    exact ⟨original, isOriginal, bodyHolds_of_subset (fun literal => (same literal).mpr) holds⟩
  · rintro ⟨original, isOriginal, holds⟩
    obtain ⟨rule, isKept, contains⟩ := exists_simplified hash isOriginal
    exact ⟨rule, isKept, bodyHolds_of_subset contains holds⟩

end Simplify

/-! ## Negation -/

section Negate

variable {hash : Literal Atom → ℤ}

omit [DecidableEq Atom] in
theorem bodyHolds_append {valuation : Atom → Bool} {body : List (Literal Atom)}
    {literal : Literal Atom} : bodyHolds valuation (body ++ [literal.negate]) = true ↔
      bodyHolds valuation body = true ∧ literal.holds valuation = false := by
  simp [bodyHolds]

omit [DecidableEq Atom] in
/-- One of the extended bodies is true if one of the bodies is, and one of the literals is false. -/
theorem flatMap_append_holds {valuation : Atom → Bool} {condition : List (Literal Atom)}
    {result : List (PropositionalAxiom Atom)} :
    (∃ rule ∈ condition.flatMap fun literal => result.map (appendCondition literal.negate),
        bodyHolds valuation rule.condition = true) ↔
      (∃ rule ∈ result, bodyHolds valuation rule.condition = true) ∧
        bodyHolds valuation condition = false := by
  simp only [List.mem_flatMap, List.mem_map, bodyHolds_eq_false]
  constructor
  · rintro ⟨_, ⟨literal, isLiteral, rule, isRule, rfl⟩, holds⟩
    obtain ⟨bodyTrue, isFalse⟩ := bodyHolds_append.mp holds
    exact ⟨⟨rule, isRule, bodyTrue⟩, literal, isLiteral, isFalse⟩
  · rintro ⟨⟨rule, isRule, bodyTrue⟩, literal, isLiteral, isFalse⟩
    exact ⟨_, ⟨literal, isLiteral, rule, isRule, rfl⟩, bodyHolds_append.mpr ⟨bodyTrue, isFalse⟩⟩

omit [DecidableEq Atom] in
/-- The special case of one literal is the general case. -/
theorem negateBodies_cons (rule : PropositionalAxiom Atom)
    (rules result : List (PropositionalAxiom Atom)) :
    negateBodies (rule :: rules) result =
      if rule.condition.isEmpty then none
      else negateBodies rules (rule.condition.flatMap fun literal =>
        result.map (appendCondition literal.negate)) := by
  rw [negateBodies]
  match rule.condition with
  | [] => rfl
  | [literal] => simp
  | first :: second :: literals => rfl

omit [DecidableEq Atom] in
theorem negateBodies_none {rules result : List (PropositionalAxiom Atom)}
    (none : negateBodies rules result = none) : ∃ rule ∈ rules, rule.condition = [] := by
  induction rules generalizing result with
  | nil => cases none
  | cons rule rules inductionHypothesis =>
    rw [negateBodies_cons] at none
    split at none
    · rename_i empty
      exact ⟨rule, List.mem_cons_self, List.isEmpty_iff.mp empty⟩
    · obtain ⟨later, isLater, empty⟩ := inductionHypothesis none
      exact ⟨later, List.mem_cons_of_mem _ isLater, empty⟩

omit [DecidableEq Atom] in
theorem negateBodies_some {rules result output : List (PropositionalAxiom Atom)}
    (some : negateBodies rules result = some output) (valuation : Atom → Bool) :
    (∃ rule ∈ output, bodyHolds valuation rule.condition = true) ↔
      (∃ rule ∈ result, bodyHolds valuation rule.condition = true) ∧
        ∀ rule ∈ rules, bodyHolds valuation rule.condition = false := by
  induction rules generalizing result with
  | nil =>
    cases some
    simp
  | cons rule rules inductionHypothesis =>
    rw [negateBodies_cons] at some
    split at some
    · cases some
    · rw [inductionHypothesis some, flatMap_append_holds, List.forall_mem_cons, and_assoc]

omit [DecidableEq Atom] in
/-- The literals of a negated axiom are complements of literals of the axioms. -/
theorem negateBodies_members {rules result output : List (PropositionalAxiom Atom)}
    (some : negateBodies rules result = some output) {rule : PropositionalAxiom Atom}
    (member : rule ∈ output) :
    ∃ start ∈ result, rule.effect = start.effect ∧ ∀ literal ∈ rule.condition,
      literal ∈ start.condition ∨ ∃ source ∈ rules, literal.negate ∈ source.condition := by
  induction rules generalizing result with
  | nil =>
    cases some
    exact ⟨rule, member, rfl, fun _ isLiteral => .inl isLiteral⟩
  | cons first rules inductionHypothesis =>
    rw [negateBodies_cons] at some
    split at some
    · cases some
    · obtain ⟨extended, isExtended, sameEffect, literals⟩ := inductionHypothesis some
      simp only [List.mem_flatMap, List.mem_map] at isExtended
      obtain ⟨added, isAdded, start, isStart, rfl⟩ := isExtended
      refine ⟨start, isStart, sameEffect, fun literal isLiteral => ?_⟩
      obtain inExtended | ⟨source, isSource, contains⟩ := literals literal isLiteral
      · cases List.mem_append.mp inExtended with
        | inl inStart => exact .inl inStart
        | inr isNew =>
          rw [List.mem_singleton] at isNew
          refine .inr ⟨first, List.mem_cons_self, ?_⟩
          rwa [isNew, Literal.negate_negate]
      · exact .inr ⟨source, List.mem_cons_of_mem _ isSource, contains⟩

/-- One of the negated bodies is true if all bodies are false. -/
theorem negate_holds_iff {rules : List (PropositionalAxiom Atom)} (nonempty : rules ≠ [])
    (valuation : Atom → Bool) :
    (∃ rule ∈ negate hash rules, bodyHolds valuation rule.condition = true) ↔
      ∀ rule ∈ rules, bodyHolds valuation rule.condition = false := by
  cases rules with
  | nil => exact absurd rfl nonempty
  | cons rule rules =>
    rw [negate]
    cases negated : negateBodies (rule :: rules)
        [{ name := rule.name, condition := [], effect := rule.effect.negate }] with
    | none =>
      obtain ⟨trivial, isTrivial, empty⟩ := negateBodies_none negated
      constructor
      · rintro ⟨_, member, _⟩
        cases member
      · intro allFalse
        have isFalse := allFalse trivial isTrivial
        rw [empty] at isFalse
        cases isFalse
    | some result =>
      simp only
      rw [simplify_holds_iff, negateBodies_some negated]
      simp [bodyHolds]

theorem mem_negate {rules : List (PropositionalAxiom Atom)} {atom : Atom}
    (heads : ∀ rule ∈ rules, rule.effect = { atom := atom, negated := false })
    {rule : PropositionalAxiom Atom} (member : rule ∈ negate hash rules) :
    rule.effect = { atom := atom, negated := true } ∧ ∀ literal ∈ rule.condition,
      ∃ source ∈ rules, literal.negate ∈ source.condition := by
  cases rules with
  | nil => cases member
  | cons first rules =>
    rw [negate] at member
    cases negated : negateBodies (first :: rules)
        [{ name := first.name, condition := [], effect := first.effect.negate }] with
    | none =>
      rw [negated] at member
      cases member
    | some result =>
      rw [negated] at member
      obtain ⟨original, isOriginal, sameEffect, sameLiterals⟩ := mem_simplify member
      obtain ⟨start, isStart, startEffect, literals⟩ := negateBodies_members negated isOriginal
      rw [List.mem_singleton] at isStart
      subst isStart
      refine ⟨?_, fun literal isLiteral => ?_⟩
      · rw [sameEffect, startEffect, heads first List.mem_cons_self]
        rfl
      · exact (literals literal ((sameLiterals literal).mp isLiteral)).resolve_left
          (List.not_mem_nil)

end Negate

end CutPlan.Translate.AxiomRules
