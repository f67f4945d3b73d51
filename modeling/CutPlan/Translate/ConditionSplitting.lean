import CutPlan.Translate.QuantifiedConditions

/-! # Splitting conditions

Conditions are simplified, their disjunctions are pulled to the root (`build_DNF`) and split, and their existential
quantifiers are pulled out (`move_existential_quantifiers`).  Simplification changes the number of ways in which a
condition holds only where a part of a disjunction or a quantified condition is constant.
-/

namespace CutPlan.Translate.Pddl

/-! ## Simplification -/

namespace Condition

def isTruth : Condition → Bool
  | .truth => true
  | _ => false

def isFalsity : Condition → Bool
  | .falsity => true
  | _ => false

def conjuncts : Condition → List Condition
  | .conjunction parts => parts
  | .truth => []
  | part => [part]

def disjuncts : Condition → List Condition
  | .disjunction parts => parts
  | .falsity => []
  | part => [part]

def simplifiedConjunction (parts : List Condition) : Condition :=
  if parts.any isFalsity then .falsity
  else
    match parts.flatMap conjuncts with
    | [] => .truth
    | [part] => part
    | parts => .conjunction parts

def simplifiedDisjunction (parts : List Condition) : Condition :=
  if parts.any isTruth then .truth
  else
    match parts.flatMap disjuncts with
    | [] => .falsity
    | [part] => part
    | parts => .disjunction parts

def simplifiedExistential (parameters : List TypedObject) : Condition → Condition
  | .truth => .truth
  | .falsity => .falsity
  | part => .existential parameters part

mutual
def simplified : Condition → Condition
  | .truth => .truth
  | .falsity => .falsity
  | .test kind args => .test kind args
  | .conjunction parts => simplifiedConjunction (simplifiedEach parts)
  | .disjunction parts => simplifiedDisjunction (simplifiedEach parts)
  | .existential parameters part => simplifiedExistential parameters part.simplified

def simplifiedEach : List Condition → List Condition
  | [] => []
  | part :: parts => part.simplified :: simplifiedEach parts
end

/-! ## Disjunctions -/

mutual
def hasDisjunction : Condition → Bool
  | .truth | .falsity | .test _ _ => false
  | .conjunction parts => someHasDisjunction parts
  | .disjunction _ => true
  | .existential _ part => part.hasDisjunction

def someHasDisjunction : List Condition → Bool
  | [] => false
  | part :: parts => part.hasDisjunction || someHasDisjunction parts
end

def disjunctiveParts : Condition → Option (List Condition)
  | .disjunction parts => some parts
  | _ => none

def distribute (results : List Condition) : List (List Condition) → List Condition
  | [] => results
  | parts :: rest =>
    distribute (results.flatMap fun first => parts.map fun second => .conjunction [first, second]) rest

/-- What becomes of a condition whose parts have been recursed into. -/
def pullDisjunctions (recursed : List Condition) (condition : Condition) : Condition :=
  let disjunctive := recursed.filterMap disjunctiveParts
  let other := recursed.filter fun part => part.disjunctiveParts.isNone
  if disjunctive = [] then condition
  else
    match condition with
    | .disjunction _ => .disjunction (other ++ disjunctive.flatten)
    | .existential parameters _ => .disjunction (disjunctive.flatten.map (.existential parameters))
    | _ => .disjunction (distribute [.conjunction other] disjunctive.reverse)

mutual
def recurseDisjunctions : Condition → Condition
  | .truth => .truth
  | .falsity => .falsity
  | .test kind args => .test kind args
  | .conjunction parts => pullDisjunctions (recurseDisjunctionsEach parts) (.conjunction parts)
  | .disjunction parts => pullDisjunctions (recurseDisjunctionsEach parts) (.disjunction parts)
  | .existential parameters part => pullDisjunctions [part.recurseDisjunctions] (.existential parameters part)

def recurseDisjunctionsEach : List Condition → List Condition
  | [] => []
  | part :: parts => part.recurseDisjunctions :: recurseDisjunctionsEach parts
end

def buildDnf (condition : Condition) : Condition :=
  if condition.hasDisjunction then condition.recurseDisjunctions.simplified else condition

def splitDisjunction : Condition → List Condition
  | .disjunction parts => parts
  | condition => [condition]

/-! ## Existential quantifiers -/

mutual
def hasExistentialPart : Condition → Bool
  | .truth | .falsity | .test _ _ => false
  | .conjunction parts | .disjunction parts => someHasExistentialPart parts
  | .existential _ _ => true

def someHasExistentialPart : List Condition → Bool
  | [] => false
  | part :: parts => part.hasExistentialPart || someHasExistentialPart parts
end

def existentialPart : Condition → Option (List TypedObject × Condition)
  | .existential parameters part => some (parameters, part)
  | _ => none

/-- A condition with existential parts that is no quantifier itself is asserted to be a conjunction. -/
def pullExistentials (recursed : List Condition) (condition : Condition) : Condition :=
  let existential := recursed.filterMap existentialPart
  let other := recursed.filter fun part => part.existentialPart.isNone
  if existential = [] then condition
  else
    match condition, existential with
    | .existential parameters _, (added, part) :: _ => .existential (parameters ++ added) part
    | _, _ => .existential (existential.flatMap (·.1)) (.conjunction (other ++ existential.map (·.2)))

mutual
def recurseExistentials : Condition → Condition
  | .truth => .truth
  | .falsity => .falsity
  | .test kind args => .test kind args
  | .conjunction parts => pullExistentials (recurseExistentialsEach parts) (.conjunction parts)
  | .disjunction parts => pullExistentials (recurseExistentialsEach parts) (.disjunction parts)
  | .existential parameters part => pullExistentials [part.recurseExistentials] (.existential parameters part)

def recurseExistentialsEach : List Condition → List Condition
  | [] => []
  | part :: parts => part.recurseExistentials :: recurseExistentialsEach parts
end

def moveExistentialQuantifiers (condition : Condition) : Condition :=
  if condition.hasExistentialPart then condition.recurseExistentials.simplified else condition

end Condition

/-! ## Constant parts -/

namespace Condition

/-- Simplification does not make it true. -/
inductive Solid : Condition → Prop where
  | falsity : Solid .falsity
  | test (test : Test) (args : List Argument) : Solid (.test test args)
  | conjunction {parts : List Condition} {part : Condition} (isPart : part ∈ parts) (solid : Solid part) :
      Solid (.conjunction parts)
  | disjunction {parts : List Condition} (solid : ∀ part ∈ parts, Solid part) : Solid (.disjunction parts)
  | existential {parameters : List TypedObject} {part : Condition} (solid : Solid part) :
      Solid (.existential parameters part)

/-- Nothing that becomes true stands in a disjunction or under a quantifier. -/
inductive Tidy : Condition → Prop where
  | truth : Tidy .truth
  | falsity : Tidy .falsity
  | test (test : Test) (args : List Argument) : Tidy (.test test args)
  | conjunction {parts : List Condition} (tidy : ∀ part ∈ parts, Tidy part) : Tidy (.conjunction parts)
  | disjunction {parts : List Condition} (tidy : ∀ part ∈ parts, Tidy part) (solid : ∀ part ∈ parts, Solid part) :
      Tidy (.disjunction parts)
  | existential {parameters : List TypedObject} {part : Condition} (tidy : Tidy part) (solid : Solid part) :
      Tidy (.existential parameters part)

/-- What simplification leaves of a condition that is not constant. -/
inductive Simple : Condition → Prop where
  | test (test : Test) (args : List Argument) : Simple (.test test args)
  | conjunction {parts : List Condition} (several : 2 ≤ parts.length) (simple : ∀ part ∈ parts, Simple part)
      (flat : ∀ part ∈ parts, ∀ inner, part ≠ .conjunction inner) : Simple (.conjunction parts)
  | disjunction {parts : List Condition} (several : 2 ≤ parts.length) (simple : ∀ part ∈ parts, Simple part)
      (flat : ∀ part ∈ parts, ∀ inner, part ≠ .disjunction inner) : Simple (.disjunction parts)
  | existential {parameters : List TypedObject} {part : Condition} (simple : Simple part) :
      Simple (.existential parameters part)

/-- A simplified condition. -/
def Normal (condition : Condition) : Prop := condition = .truth ∨ condition = .falsity ∨ Simple condition

theorem simplifiedEach_eq (parts : List Condition) : simplifiedEach parts = parts.map simplified := by
  induction parts with
  | nil => rfl
  | cons part parts inductionHypothesis => rw [simplifiedEach, inductionHypothesis, List.map_cons]

theorem isTruth_iff {condition : Condition} : condition.isTruth = true ↔ condition = .truth := by
  cases condition <;> simp [isTruth]

theorem isFalsity_iff {condition : Condition} : condition.isFalsity = true ↔ condition = .falsity := by
  cases condition <;> simp [isFalsity]

theorem simplifiedConjunction_cases (parts : List Condition) :
    (.falsity ∈ parts ∧ simplifiedConjunction parts = .falsity) ∨
      .falsity ∉ parts ∧
        ((parts.flatMap conjuncts = [] ∧ simplifiedConjunction parts = .truth) ∨
          (∃ part, parts.flatMap conjuncts = [part] ∧ simplifiedConjunction parts = part) ∨
            2 ≤ (parts.flatMap conjuncts).length ∧
              simplifiedConjunction parts = .conjunction (parts.flatMap conjuncts)) := by
  rw [simplifiedConjunction]
  split
  case isTrue isFalse =>
    obtain ⟨part, isPart, same⟩ := List.any_eq_true.mp isFalse
    rw [isFalsity_iff] at same
    exact .inl ⟨same ▸ isPart, rfl⟩
  case isFalse notFalse =>
    refine .inr ⟨fun isPart => notFalse (List.any_eq_true.mpr ⟨_, isPart, rfl⟩), ?_⟩
    cases flattened : parts.flatMap conjuncts with
    | nil => exact .inl ⟨rfl, rfl⟩
    | cons first rest =>
      cases rest with
      | nil => exact .inr (.inl ⟨first, rfl, rfl⟩)
      | cons second rest => exact .inr (.inr ⟨by simp, rfl⟩)

theorem simplifiedDisjunction_cases (parts : List Condition) :
    (.truth ∈ parts ∧ simplifiedDisjunction parts = .truth) ∨
      .truth ∉ parts ∧
        ((parts.flatMap disjuncts = [] ∧ simplifiedDisjunction parts = .falsity) ∨
          (∃ part, parts.flatMap disjuncts = [part] ∧ simplifiedDisjunction parts = part) ∨
            2 ≤ (parts.flatMap disjuncts).length ∧
              simplifiedDisjunction parts = .disjunction (parts.flatMap disjuncts)) := by
  rw [simplifiedDisjunction]
  split
  case isTrue isTrue =>
    obtain ⟨part, isPart, same⟩ := List.any_eq_true.mp isTrue
    rw [isTruth_iff] at same
    exact .inl ⟨same ▸ isPart, rfl⟩
  case isFalse notTrue =>
    refine .inr ⟨fun isPart => notTrue (List.any_eq_true.mpr ⟨_, isPart, rfl⟩), ?_⟩
    cases flattened : parts.flatMap disjuncts with
    | nil => exact .inl ⟨rfl, rfl⟩
    | cons first rest =>
      cases rest with
      | nil => exact .inr (.inl ⟨first, rfl, rfl⟩)
      | cons second rest => exact .inr (.inr ⟨by simp, rfl⟩)

theorem Simple.ne_truth {condition : Condition} (simple : Simple condition) : condition ≠ .truth := by
  cases simple <;> simp

theorem Simple.ne_falsity {condition : Condition} (simple : Simple condition) : condition ≠ .falsity := by
  cases simple <;> simp

/-- The parts of a simplified conjunction. -/
theorem Normal.conjuncts {condition : Condition} (normal : Normal condition) (notFalse : condition ≠ .falsity) :
    ∀ part ∈ condition.conjuncts, Simple part ∧ ∀ inner, part ≠ .conjunction inner := by
  obtain rfl | rfl | simple := normal
  · simp [Condition.conjuncts]
  · exact absurd rfl notFalse
  · cases simple with
    | conjunction several simple flat => exact fun part isPart => ⟨simple part isPart, flat part isPart⟩
    | test test args => simp [Condition.conjuncts, Simple.test]
    | disjunction several simple flat =>
      simp only [Condition.conjuncts, List.mem_singleton, forall_eq]
      exact ⟨.disjunction several simple flat, by simp⟩
    | existential simple =>
      simp only [Condition.conjuncts, List.mem_singleton, forall_eq]
      exact ⟨.existential simple, by simp⟩

theorem Normal.disjuncts {condition : Condition} (normal : Normal condition) (notTrue : condition ≠ .truth) :
    ∀ part ∈ condition.disjuncts, Simple part ∧ ∀ inner, part ≠ .disjunction inner := by
  obtain rfl | rfl | simple := normal
  · exact absurd rfl notTrue
  · simp [Condition.disjuncts]
  · cases simple with
    | disjunction several simple flat => exact fun part isPart => ⟨simple part isPart, flat part isPart⟩
    | test test args => simp [Condition.disjuncts, Simple.test]
    | conjunction several simple flat =>
      simp only [Condition.disjuncts, List.mem_singleton, forall_eq]
      exact ⟨.conjunction several simple flat, by simp⟩
    | existential simple =>
      simp only [Condition.disjuncts, List.mem_singleton, forall_eq]
      exact ⟨.existential simple, by simp⟩

theorem normal_simplifiedConjunction {parts : List Condition} (normal : ∀ part ∈ parts, Normal part) :
    Normal (simplifiedConjunction parts) := by
  obtain ⟨_, same⟩ | ⟨noFalse, flattened⟩ := simplifiedConjunction_cases parts
  · exact .inr (.inl same)
  · have simple : ∀ part ∈ parts.flatMap Condition.conjuncts, Simple part ∧ ∀ inner, part ≠ .conjunction inner := by
      intro part isPart
      obtain ⟨outer, isOuter, isInner⟩ := List.mem_flatMap.mp isPart
      exact (normal outer isOuter).conjuncts (fun same => noFalse (same ▸ isOuter)) part isInner
    obtain ⟨_, same⟩ | ⟨part, isPart, same⟩ | ⟨several, same⟩ := flattened
    · exact .inl same
    · rw [isPart] at simple
      rw [same]
      exact .inr (.inr (simple part (List.mem_singleton_self part)).1)
    · rw [same]
      exact .inr (.inr (.conjunction several (fun part isPart => (simple part isPart).1)
        fun part isPart => (simple part isPart).2))

theorem normal_simplifiedDisjunction {parts : List Condition} (normal : ∀ part ∈ parts, Normal part) :
    Normal (simplifiedDisjunction parts) := by
  obtain ⟨_, same⟩ | ⟨noTrue, flattened⟩ := simplifiedDisjunction_cases parts
  · exact .inl same
  · have simple : ∀ part ∈ parts.flatMap Condition.disjuncts, Simple part ∧ ∀ inner, part ≠ .disjunction inner := by
      intro part isPart
      obtain ⟨outer, isOuter, isInner⟩ := List.mem_flatMap.mp isPart
      exact (normal outer isOuter).disjuncts (fun same => noTrue (same ▸ isOuter)) part isInner
    obtain ⟨_, same⟩ | ⟨part, isPart, same⟩ | ⟨several, same⟩ := flattened
    · exact .inr (.inl same)
    · rw [isPart] at simple
      rw [same]
      exact .inr (.inr (simple part (List.mem_singleton_self part)).1)
    · rw [same]
      exact .inr (.inr (.disjunction several (fun part isPart => (simple part isPart).1)
        fun part isPart => (simple part isPart).2))

theorem normal_simplified (condition : Condition) : Normal condition.simplified := by
  induction condition using Condition.induct with
  | truth => exact .inl rfl
  | falsity => exact .inr (.inl rfl)
  | test test args => exact .inr (.inr (.test test args))
  | conjunction parts inductionHypothesis =>
    rw [simplified, simplifiedEach_eq]
    exact normal_simplifiedConjunction (List.forall_mem_map.mpr inductionHypothesis)
  | disjunction parts inductionHypothesis =>
    rw [simplified, simplifiedEach_eq]
    exact normal_simplifiedDisjunction (List.forall_mem_map.mpr inductionHypothesis)
  | existential parameters part inductionHypothesis =>
    rw [simplified]
    obtain same | same | simple := inductionHypothesis
    · rw [same]
      exact .inl rfl
    · rw [same]
      exact .inr (.inl rfl)
    · cases isPart : part.simplified with
      | truth => exact absurd isPart simple.ne_truth
      | falsity => exact absurd isPart simple.ne_falsity
      | test _ _ | conjunction _ | disjunction _ | existential _ _ =>
        rw [isPart] at simple
        exact .inr (.inr (.existential simple))

theorem Simple.tidy_solid {condition : Condition} (simple : Simple condition) : Tidy condition ∧ Solid condition := by
  induction simple with
  | test test args => exact ⟨.test test args, .test test args⟩
  | conjunction several _ _ inductionHypothesis =>
    obtain ⟨part, isPart⟩ := List.exists_mem_of_length_pos (Nat.lt_of_lt_of_le Nat.zero_lt_two several)
    exact ⟨.conjunction fun part isPart => (inductionHypothesis part isPart).1,
      .conjunction isPart (inductionHypothesis part isPart).2⟩
  | disjunction _ _ _ inductionHypothesis =>
    exact ⟨.disjunction (fun part isPart => (inductionHypothesis part isPart).1)
      fun part isPart => (inductionHypothesis part isPart).2,
      .disjunction fun part isPart => (inductionHypothesis part isPart).2⟩
  | existential _ inductionHypothesis =>
    exact ⟨.existential inductionHypothesis.1 inductionHypothesis.2, .existential inductionHypothesis.2⟩

theorem Solid.simplified_ne_truth {condition : Condition} (solid : Solid condition) :
    condition.simplified ≠ .truth := by
  induction solid with
  | falsity => simp [simplified]
  | test test args => simp [simplified]
  | @conjunction parts part isPart _ inductionHypothesis =>
    rw [simplified, simplifiedEach_eq]
    have normal : ∀ part ∈ parts.map simplified, Normal part :=
      List.forall_mem_map.mpr fun part _ => normal_simplified part
    obtain ⟨_, same⟩ | ⟨noFalse, ⟨isEmpty, _⟩ | ⟨other, isOther, same⟩ | ⟨_, same⟩⟩ :=
      simplifiedConjunction_cases (parts.map simplified)
    · simp [same]
    · -- The solid part would have no conjuncts.
      have none := List.flatMap_eq_nil_iff.mp isEmpty _ (List.mem_map_of_mem isPart)
      obtain isTrue | isFalse | simple := normal_simplified part
      · exact absurd isTrue inductionHypothesis
      · exact absurd (isFalse ▸ List.mem_map_of_mem isPart) noFalse
      · cases isSimple : part.simplified with
        | conjunction parts =>
          rw [isSimple] at none simple
          rw [conjuncts] at none
          cases simple with
          | conjunction several _ _ => simp [none] at several
        | truth => exact absurd isSimple inductionHypothesis
        | falsity | test _ _ | disjunction _ | existential _ _ => simp [isSimple, conjuncts] at none
    · rw [same]
      obtain ⟨outer, isOuter, isInner⟩ := List.mem_flatMap.mp (isOther ▸ List.mem_singleton_self other)
      exact ((normal outer isOuter).conjuncts (fun same => noFalse (same ▸ isOuter)) other isInner).1.ne_truth
    · simp [same]
  | @disjunction parts _ inductionHypothesis =>
    rw [simplified, simplifiedEach_eq]
    have normal : ∀ part ∈ parts.map simplified, Normal part :=
      List.forall_mem_map.mpr fun part _ => normal_simplified part
    obtain ⟨isTrue, _⟩ | ⟨noTrue, ⟨_, same⟩ | ⟨other, isOther, same⟩ | ⟨_, same⟩⟩ :=
      simplifiedDisjunction_cases (parts.map simplified)
    · obtain ⟨part, isPart, isTrue⟩ := List.mem_map.mp isTrue
      exact absurd isTrue (inductionHypothesis part isPart)
    · simp [same]
    · rw [same]
      obtain ⟨outer, isOuter, isInner⟩ := List.mem_flatMap.mp (isOther ▸ List.mem_singleton_self other)
      exact ((normal outer isOuter).disjuncts (fun same => noTrue (same ▸ isOuter)) other isInner).1.ne_truth
    · simp [same]
  | @existential parameters part _ inductionHypothesis =>
    rw [simplified]
    cases isPart : part.simplified with
    | truth => exact absurd isPart inductionHypothesis
    | falsity | test _ _ | conjunction _ | disjunction _ | existential _ _ => simp [simplifiedExistential]

end Condition

/-! ## Simplification keeps the ways -/

namespace Condition

section Ways

variable {world : World} {mapping : Mapping}

@[simp] theorem ways_truth : Condition.ways world mapping .truth = 1 := rfl

@[simp] theorem ways_falsity : Condition.ways world mapping .falsity = 0 := rfl

@[simp] theorem ways_conjunction (parts : List Condition) :
    Condition.ways world mapping (.conjunction parts) = (parts.map (Condition.ways world mapping)).prod := by
  rw [Condition.ways, waysEach_eq]

@[simp] theorem ways_disjunction (parts : List Condition) :
    Condition.ways world mapping (.disjunction parts) = (parts.map (Condition.ways world mapping)).sum := by
  rw [Condition.ways, waysEach_eq]

theorem ways_existential (parameters : List TypedObject) (part : Condition) :
    Condition.ways world mapping (.existential parameters part) =
      ((assignments world.objectsByType parameters mapping).map fun mapping => part.ways world mapping).sum := by
  rw [Condition.ways]

theorem ways_conjuncts (condition : Condition) :
    (condition.conjuncts.map (Condition.ways world mapping)).prod = condition.ways world mapping := by
  cases condition <;> simp [conjuncts]

theorem ways_disjuncts (condition : Condition) :
    (condition.disjuncts.map (Condition.ways world mapping)).sum = condition.ways world mapping := by
  cases condition <;> simp [disjuncts]

theorem ways_flatMap_conjuncts (parts : List Condition) :
    ((parts.flatMap conjuncts).map (Condition.ways world mapping)).prod =
      (parts.map (Condition.ways world mapping)).prod := by
  induction parts with
  | nil => rfl
  | cons part parts inductionHypothesis =>
    rw [List.flatMap_cons, List.map_append, List.prod_append, ways_conjuncts, inductionHypothesis, List.map_cons,
      List.prod_cons]

theorem ways_flatMap_disjuncts (parts : List Condition) :
    ((parts.flatMap disjuncts).map (Condition.ways world mapping)).sum =
      (parts.map (Condition.ways world mapping)).sum := by
  induction parts with
  | nil => rfl
  | cons part parts inductionHypothesis =>
    rw [List.flatMap_cons, List.map_append, List.sum_append, ways_disjuncts, inductionHypothesis, List.map_cons,
      List.sum_cons]

theorem ways_simplifiedConjunction (parts : List Condition) :
    (simplifiedConjunction parts).ways world mapping = (parts.map (Condition.ways world mapping)).prod := by
  obtain ⟨isFalse, same⟩ | ⟨_, flattened⟩ := simplifiedConjunction_cases parts
  · rw [same, ways_falsity]
    exact (List.prod_eq_zero (List.mem_map.mpr ⟨_, isFalse, rfl⟩)).symm
  · rw [← ways_flatMap_conjuncts]
    obtain ⟨isEmpty, same⟩ | ⟨part, isPart, same⟩ | ⟨_, same⟩ := flattened
    · simp [same, isEmpty]
    · simp [same, isPart]
    · rw [same, ways_conjunction]

theorem ways_simplifiedDisjunction {parts : List Condition} (noTruth : .truth ∉ parts) :
    (simplifiedDisjunction parts).ways world mapping = (parts.map (Condition.ways world mapping)).sum := by
  obtain ⟨isTrue, _⟩ | ⟨_, flattened⟩ := simplifiedDisjunction_cases parts
  · exact absurd isTrue noTruth
  · rw [← ways_flatMap_disjuncts]
    obtain ⟨isEmpty, same⟩ | ⟨part, isPart, same⟩ | ⟨_, same⟩ := flattened
    · simp [same, isEmpty]
    · simp [same, isPart]
    · rw [same, ways_disjunction]

theorem Tidy.ways_simplified {condition : Condition} (tidy : Tidy condition) (mapping : Mapping) :
    condition.simplified.ways world mapping = condition.ways world mapping := by
  induction tidy generalizing mapping with
  | truth => rfl
  | falsity => rfl
  | test kind args => rfl
  | conjunction _ inductionHypothesis =>
    rw [simplified, simplifiedEach_eq, ways_simplifiedConjunction, ways_conjunction, List.map_map]
    exact congrArg List.prod (List.map_congr_left fun part isPart => inductionHypothesis part isPart mapping)
  | disjunction _ solid inductionHypothesis =>
    rw [simplified, simplifiedEach_eq, ways_simplifiedDisjunction, ways_disjunction, List.map_map]
    · exact congrArg List.sum (List.map_congr_left fun part isPart => inductionHypothesis part isPart mapping)
    · intro isTrue
      obtain ⟨part, isPart, isTrue⟩ := List.mem_map.mp isTrue
      exact (solid part isPart).simplified_ne_truth isTrue
  | @existential parameters part _ solid inductionHypothesis =>
    have sameSum : ((assignments world.objectsByType parameters mapping).map fun mapping =>
        part.simplified.ways world mapping).sum = Condition.ways world mapping (.existential parameters part) := by
      rw [ways_existential]
      exact congrArg List.sum (List.map_congr_left fun other _ => inductionHypothesis other)
    rw [simplified, ← sameSum]
    cases isPart : part.simplified with
    | truth => exact absurd isPart solid.simplified_ne_truth
    | falsity => simp [simplifiedExistential]
    | test _ _ | conjunction _ | disjunction _ | existential _ _ => simp only [simplifiedExistential, ways_existential]

end Ways

/-! ## Names -/

/-- Neither of two conditions binds a variable of the other. -/
def Separate (first second : Condition) : Prop :=
  first.binders.Disjoint second.names ∧ second.binders.Disjoint first.names

/-- The parts of conjunctions bind different variables. -/
inductive Apart : Condition → Prop where
  | truth : Apart .truth
  | falsity : Apart .falsity
  | test (test : Test) (args : List Argument) : Apart (.test test args)
  | conjunction {parts : List Condition} (apart : ∀ part ∈ parts, Apart part) (separate : parts.Pairwise Separate) :
      Apart (.conjunction parts)
  | disjunction {parts : List Condition} (apart : ∀ part ∈ parts, Apart part) : Apart (.disjunction parts)
  | existential {parameters : List TypedObject} {part : Condition} (apart : Apart part) :
      Apart (.existential parameters part)

/-- A condition with only the variables of another one. -/
structure Within (outer inner : Condition) : Prop where
  names : inner.names ⊆ outer.names
  binders : inner.binders ⊆ outer.binders
  apart : Apart inner

theorem Separate.symm {first second : Condition} (separate : Separate first second) : Separate second first :=
  ⟨separate.2, separate.1⟩

theorem Separate.mono {first second firstInner secondInner : Condition} (separate : Separate first second)
    (isFirst : Within first firstInner) (isSecond : Within second secondInner) : Separate firstInner secondInner :=
  ⟨fun _ isBinder isName => separate.1 (isFirst.binders isBinder) (isSecond.names isName),
    fun _ isBinder isName => separate.2 (isSecond.binders isBinder) (isFirst.names isName)⟩

theorem Within.refl {condition : Condition} (apart : Apart condition) : Within condition condition :=
  ⟨List.Subset.refl _, List.Subset.refl _, apart⟩

theorem Within.trans {outer middle inner : Condition} (isMiddle : Within outer middle) (isInner : Within middle inner) :
    Within outer inner :=
  ⟨List.Subset.trans isInner.names isMiddle.names, List.Subset.trans isInner.binders isMiddle.binders, isInner.apart⟩

theorem within_truth (outer : Condition) : Within outer .truth :=
  ⟨List.nil_subset _, List.nil_subset _, .truth⟩

theorem within_falsity (outer : Condition) : Within outer .falsity :=
  ⟨List.nil_subset _, List.nil_subset _, .falsity⟩

theorem names_part {parts : List Condition} {part : Condition} (isPart : part ∈ parts) :
    part.names ⊆ namesOfEach parts := fun _ isName => mem_namesOfEach.mpr ⟨part, isPart, isName⟩

theorem binders_part {parts : List Condition} {part : Condition} (isPart : part ∈ parts) :
    part.binders ⊆ bindersOfEach parts := fun _ isName => mem_bindersOfEach.mpr ⟨part, isPart, isName⟩

theorem namesOfEach_subset {parts : List Condition} {names : List String}
    (subset : ∀ part ∈ parts, part.names ⊆ names) : namesOfEach parts ⊆ names := by
  intro name isName
  obtain ⟨part, isPart, isName⟩ := mem_namesOfEach.mp isName
  exact subset part isPart isName

theorem bindersOfEach_subset {parts : List Condition} {names : List String}
    (subset : ∀ part ∈ parts, part.binders ⊆ names) : bindersOfEach parts ⊆ names := by
  intro name isName
  obtain ⟨part, isPart, isName⟩ := mem_bindersOfEach.mp isName
  exact subset part isPart isName

theorem Within.conjunction {outer : Condition} {parts : List Condition} (within : ∀ part ∈ parts, Within outer part)
    (separate : parts.Pairwise Separate) : Within outer (.conjunction parts) :=
  ⟨namesOfEach_subset fun part isPart => (within part isPart).names,
    bindersOfEach_subset fun part isPart => (within part isPart).binders,
    .conjunction (fun part isPart => (within part isPart).apart) separate⟩

theorem Within.disjunction {outer : Condition} {parts : List Condition}
    (within : ∀ part ∈ parts, Within outer part) : Within outer (.disjunction parts) :=
  ⟨namesOfEach_subset fun part isPart => (within part isPart).names,
    bindersOfEach_subset fun part isPart => (within part isPart).binders,
    .disjunction fun part isPart => (within part isPart).apart⟩

theorem Within.existential (parameters : List TypedObject) {outer inner : Condition} (within : Within outer inner) :
    Within (.existential parameters outer) (.existential parameters inner) :=
  ⟨List.append_subset.mpr ⟨List.subset_append_left _ _, List.Subset.trans within.names (List.subset_append_right _ _)⟩,
    List.append_subset.mpr ⟨List.subset_append_left _ _, List.Subset.trans within.binders (List.subset_append_right _ _)⟩,
    .existential within.apart⟩

theorem within_conjunctionPart {parts : List Condition} {part : Condition} (apart : Apart (.conjunction parts))
    (isPart : part ∈ parts) : Within (.conjunction parts) part := by
  cases apart with
  | conjunction apart _ => exact ⟨names_part isPart, binders_part isPart, apart part isPart⟩

theorem within_disjunctionPart {parts : List Condition} {part : Condition} (apart : Apart (.disjunction parts))
    (isPart : part ∈ parts) : Within (.disjunction parts) part := by
  cases apart with
  | disjunction apart => exact ⟨names_part isPart, binders_part isPart, apart part isPart⟩

theorem within_conjuncts {condition : Condition} (apart : Apart condition) :
    ∀ part ∈ condition.conjuncts, Within condition part := by
  cases condition with
  | conjunction parts => exact fun part => within_conjunctionPart apart
  | truth => simp [conjuncts]
  | falsity | test _ _ | disjunction _ | existential _ _ => simpa [conjuncts] using Within.refl apart

theorem within_disjuncts {condition : Condition} (apart : Apart condition) :
    ∀ part ∈ condition.disjuncts, Within condition part := by
  cases condition with
  | disjunction parts => exact fun part => within_disjunctionPart apart
  | falsity => simp [disjuncts]
  | truth | test _ _ | conjunction _ | existential _ _ => simpa [disjuncts] using Within.refl apart

theorem separate_conjuncts {condition : Condition} (apart : Apart condition) :
    condition.conjuncts.Pairwise Separate := by
  cases apart with
  | conjunction apart separate => exact separate
  | truth | falsity | test _ _ | disjunction _ | existential _ => simp [conjuncts]

theorem within_simplifiedConjunction {parts : List Condition} (apart : Apart (.conjunction parts)) :
    Within (.conjunction parts) (simplifiedConjunction parts) := by
  have within : ∀ part ∈ parts.flatMap conjuncts, Within (.conjunction parts) part := by
    intro part isPart
    obtain ⟨outer, isOuter, isInner⟩ := List.mem_flatMap.mp isPart
    have isWithin := within_conjunctionPart apart isOuter
    exact isWithin.trans (within_conjuncts isWithin.apart part isInner)
  obtain ⟨_, same⟩ | ⟨_, ⟨_, same⟩ | ⟨part, isPart, same⟩ | ⟨_, same⟩⟩ := simplifiedConjunction_cases parts
  · exact same ▸ within_falsity _
  · exact same ▸ within_truth _
  · rw [same]
    exact within part (isPart ▸ List.mem_singleton_self part)
  · rw [same]
    refine Within.conjunction within (List.pairwise_flatMap.mpr ?_)
    cases apart with
    | conjunction apart separate =>
      refine ⟨fun part isPart => separate_conjuncts (apart part isPart), separate.imp_of_mem ?_⟩
      intro first second isFirst isSecond separate firstInner isFirstInner secondInner isSecondInner
      exact separate.mono (within_conjuncts (apart first isFirst) firstInner isFirstInner)
        (within_conjuncts (apart second isSecond) secondInner isSecondInner)

theorem within_simplifiedDisjunction {parts : List Condition} (apart : Apart (.disjunction parts)) :
    Within (.disjunction parts) (simplifiedDisjunction parts) := by
  have within : ∀ part ∈ parts.flatMap disjuncts, Within (.disjunction parts) part := by
    intro part isPart
    obtain ⟨outer, isOuter, isInner⟩ := List.mem_flatMap.mp isPart
    have isWithin := within_disjunctionPart apart isOuter
    exact isWithin.trans (within_disjuncts isWithin.apart part isInner)
  obtain ⟨_, same⟩ | ⟨_, ⟨_, same⟩ | ⟨part, isPart, same⟩ | ⟨_, same⟩⟩ := simplifiedDisjunction_cases parts
  · exact same ▸ within_truth _
  · exact same ▸ within_falsity _
  · rw [same]
    exact within part (isPart ▸ List.mem_singleton_self part)
  · exact same ▸ Within.disjunction within

theorem within_simplified {condition : Condition} (apart : Apart condition) : Within condition condition.simplified := by
  induction condition using Condition.induct with
  | truth => exact within_truth _
  | falsity => exact within_falsity _
  | test kind args => exact Within.refl apart
  | conjunction parts inductionHypothesis =>
    rw [simplified, simplifiedEach_eq]
    cases apart with
    | conjunction apart separate =>
      have within : Within (.conjunction parts) (.conjunction (parts.map simplified)) := by
        refine Within.conjunction (List.forall_mem_map.mpr fun part isPart => ?_)
          (List.pairwise_map.mpr (separate.imp_of_mem fun {first second} isFirst isSecond separate => ?_))
        · exact (within_conjunctionPart (.conjunction apart separate) isPart).trans
            (inductionHypothesis part isPart (apart part isPart))
        · exact separate.mono (inductionHypothesis first isFirst (apart first isFirst))
            (inductionHypothesis second isSecond (apart second isSecond))
      exact within.trans (within_simplifiedConjunction within.apart)
  | disjunction parts inductionHypothesis =>
    rw [simplified, simplifiedEach_eq]
    have within : Within (.disjunction parts) (.disjunction (parts.map simplified)) := by
      refine Within.disjunction (List.forall_mem_map.mpr fun part isPart => ?_)
      have isWithin := within_disjunctionPart apart isPart
      exact isWithin.trans (inductionHypothesis part isPart isWithin.apart)
    exact within.trans (within_simplifiedDisjunction within.apart)
  | existential parameters part inductionHypothesis =>
    cases apart with
    | existential apart =>
      have within := (inductionHypothesis apart).existential parameters
      rw [simplified]
      cases isPart : part.simplified with
      | truth => exact within_truth _
      | falsity => exact within_falsity _
      | test _ _ | conjunction _ | disjunction _ | existential _ _ =>
        rw [isPart] at within
        exact within

end Condition

end CutPlan.Translate.Pddl
