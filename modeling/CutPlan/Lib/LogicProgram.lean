import Mathlib.Data.List.Basic

/-! # Stratified logic programs

Clauses over ground atoms with negation.  Atoms that head no clause are given; the others are true if
they can be derived, where a negated literal is judged by the model itself.  A program with a
stratification has exactly one such model.
-/

namespace CutPlan.Lib

variable {Atom : Type*}

structure Literal (Atom : Type*) where
  atom : Atom
  negated : Bool
  deriving DecidableEq, Repr

namespace Literal

def negate (literal : Literal Atom) : Literal Atom :=
  { literal with negated := !literal.negated }

def positive (literal : Literal Atom) : Literal Atom :=
  { literal with negated := false }

def holds (valuation : Atom → Bool) (literal : Literal Atom) : Bool :=
  valuation literal.atom != literal.negated

@[simp] theorem negate_negate (literal : Literal Atom) : literal.negate.negate = literal := by
  simp [negate]

@[simp] theorem negate_atom (literal : Literal Atom) : literal.negate.atom = literal.atom := rfl

@[simp] theorem negate_negated (literal : Literal Atom) :
    literal.negate.negated = !literal.negated := rfl

@[simp] theorem positive_atom (literal : Literal Atom) : literal.positive.atom = literal.atom := rfl

@[simp] theorem positive_negated (literal : Literal Atom) : literal.positive.negated = false := rfl

@[simp] theorem holds_negate (valuation : Atom → Bool) (literal : Literal Atom) :
    literal.negate.holds valuation = !literal.holds valuation := by
  cases value : valuation literal.atom <;> cases sign : literal.negated <;>
    simp [holds, negate, value, sign]

theorem holds_iff (valuation : Atom → Bool) (literal : Literal Atom) :
    literal.holds valuation = true ↔ valuation literal.atom = !literal.negated := by
  cases value : valuation literal.atom <;> cases sign : literal.negated <;>
    simp [holds, value, sign]

theorem holds_congr {first second : Atom → Bool} {literal : Literal Atom}
    (same : first literal.atom = second literal.atom) :
    literal.holds first = literal.holds second := by
  rw [holds, holds, same]

end Literal

structure Clause (Atom : Type*) where
  head : Atom
  body : List (Literal Atom)

/-- The body is a conjunction. -/
def bodyHolds (valuation : Atom → Bool) (body : List (Literal Atom)) : Bool :=
  body.all (Literal.holds valuation)

theorem bodyHolds_iff {valuation : Atom → Bool} {body : List (Literal Atom)} :
    bodyHolds valuation body = true ↔ ∀ literal ∈ body, literal.holds valuation = true := by
  rw [bodyHolds, List.all_eq_true]

theorem bodyHolds_of_subset {first second : List (Literal Atom)}
    (subset : ∀ literal ∈ first, literal ∈ second) {valuation : Atom → Bool}
    (holds : bodyHolds valuation second = true) : bodyHolds valuation first = true := by
  rw [bodyHolds_iff] at holds ⊢
  exact fun literal member => holds literal (subset literal member)

theorem bodyHolds_eq_false {valuation : Atom → Bool} {body : List (Literal Atom)} :
    bodyHolds valuation body = false ↔ ∃ literal ∈ body, literal.holds valuation = false := by
  simp [bodyHolds]

namespace LogicProgram

variable (program : List (Clause Atom))

def IsHead (atom : Atom) : Prop :=
  ∃ clause ∈ program, clause.head = atom

instance [DecidableEq Atom] (program : List (Clause Atom)) (atom : Atom) :
    Decidable (IsHead program atom) :=
  inferInstanceAs (Decidable (∃ clause ∈ program, clause.head = atom))

/-- The least set of true atoms if negated literals are judged by `model`. -/
inductive Derives (model : Atom → Bool) : Atom → Prop
  | given {atom : Atom} : ¬ IsHead program atom → model atom = true → Derives model atom
  | clause {clause : Clause Atom} : clause ∈ program →
      (∀ literal ∈ clause.body, literal.negated = true → model literal.atom = false) →
      (∀ literal ∈ clause.body, literal.negated = false → Derives model literal.atom) →
      Derives model clause.head

/-- The model in which exactly the derived atoms are true. -/
structure IsModel (base model : Atom → Bool) : Prop where
  given : ∀ atom, ¬ IsHead program atom → model atom = base atom
  derived : ∀ atom, IsHead program atom → (model atom = true ↔ Derives program model atom)

/-- A head is not below the heads in its bodies, and above those that are negated there. -/
structure Stratifies (level : Atom → ℕ) : Prop where
  positive : ∀ clause ∈ program, ∀ literal ∈ clause.body, literal.negated = false →
    IsHead program literal.atom → level literal.atom ≤ level clause.head
  negative : ∀ clause ∈ program, ∀ literal ∈ clause.body, literal.negated = true →
    IsHead program literal.atom → level literal.atom < level clause.head

variable {program}

theorem IsModel.derives_iff {base model : Atom → Bool} (isModel : IsModel program base model)
    (atom : Atom) : model atom = true ↔ Derives program model atom := by
  by_cases isHead : IsHead program atom
  · exact isModel.derived atom isHead
  · refine ⟨.given isHead, fun derives => ?_⟩
    cases derives with
    | given _ isTrue => exact isTrue
    | clause member _ _ => exact absurd ⟨_, member, rfl⟩ isHead

/-- A head is true if the body of one of its clauses is. -/
theorem IsModel.of_body {base model : Atom → Bool} (isModel : IsModel program base model)
    {clause : Clause Atom} (member : clause ∈ program)
    (holds : bodyHolds model clause.body = true) : model clause.head = true := by
  rw [bodyHolds_iff] at holds
  rw [isModel.derives_iff]
  refine .clause member (fun literal isLiteral negated => ?_) fun literal isLiteral positive => ?_
  · simpa [negated] using (literal.holds_iff model).mp (holds literal isLiteral)
  · rw [← isModel.derives_iff]
    simpa [positive] using (literal.holds_iff model).mp (holds literal isLiteral)

/-- A true head has a clause whose body is true. -/
theorem IsModel.body_of_true {base model : Atom → Bool} (isModel : IsModel program base model)
    {atom : Atom} (isHead : IsHead program atom) (isTrue : model atom = true) :
    ∃ clause ∈ program, clause.head = atom ∧ bodyHolds model clause.body = true := by
  have derives := (isModel.derives_iff atom).mp isTrue
  cases derives with
  | given notHead _ => exact absurd isHead notHead
  | @clause clause member negatives positives =>
    refine ⟨clause, member, rfl, bodyHolds_iff.mpr fun literal isLiteral => ?_⟩
    rw [literal.holds_iff]
    cases sign : literal.negated with
    | false =>
      rw [(isModel.derives_iff literal.atom).mpr (positives literal isLiteral sign)]
      rfl
    | true =>
      rw [negatives literal isLiteral sign]
      rfl

/-! ## The model of a stratified program -/

theorem derives_congr {level : Atom → ℕ} (stratifies : Stratifies program level)
    {first second : Atom → Bool} {bound : ℕ}
    (given : ∀ atom, ¬ IsHead program atom → first atom = second atom)
    (below : ∀ atom, IsHead program atom → level atom < bound → first atom = second atom)
    {atom : Atom} (within : IsHead program atom → level atom ≤ bound)
    (derives : Derives program first atom) : Derives program second atom := by
  induction derives with
  | given notHead isTrue => exact .given notHead (given _ notHead ▸ isTrue)
  | clause member negatives positives inductionHypothesis =>
    have headWithin := within ⟨_, member, rfl⟩
    refine .clause member (fun literal isLiteral negated => ?_) fun literal isLiteral positive => ?_
    · rw [← negatives literal isLiteral negated]
      by_cases isHead : IsHead program literal.atom
      · have lower := stratifies.negative _ member literal isLiteral negated isHead
        exact (below literal.atom isHead (by omega)).symm
      · exact (given literal.atom isHead).symm
    · refine inductionHypothesis literal isLiteral positive fun isHead => ?_
      exact Nat.le_trans (stratifies.positive _ member literal isLiteral positive isHead) headWithin

theorem model_unique {level : Atom → ℕ} (stratifies : Stratifies program level)
    {base first second : Atom → Bool} (firstModel : IsModel program base first)
    (secondModel : IsModel program base second) : first = second := by
  have given (atom : Atom) (notHead : ¬ IsHead program atom) : first atom = second atom := by
    rw [firstModel.given atom notHead, secondModel.given atom notHead]
  have byLevel (bound : ℕ) :
      ∀ atom, IsHead program atom → level atom < bound → first atom = second atom := by
    induction bound with
    | zero =>
      intro _ _ impossible
      omega
    | succ bound inductionHypothesis =>
      intro atom isHead small
      rw [Bool.eq_iff_iff, firstModel.derives_iff, secondModel.derives_iff]
      constructor
      · exact derives_congr stratifies given inductionHypothesis fun _ => by omega
      · exact derives_congr stratifies (fun other notHead => (given other notHead).symm)
          (fun other isHead lower => (inductionHypothesis other isHead lower).symm)
          fun _ => by omega
  funext atom
  by_cases isHead : IsHead program atom
  · exact byLevel (level atom + 1) atom isHead (Nat.lt_succ_self _)
  · exact given atom isHead

open Classical in
/-- The truth values up to a level, from those of the levels below. -/
noncomputable def modelBelow (program : List (Clause Atom)) (level : Atom → ℕ)
    (base : Atom → Bool) : ℕ → Atom → Bool
  | 0 => base
  | bound + 1 => fun atom =>
    if IsHead program atom ∧ level atom = bound then
      decide (Derives program (modelBelow program level base bound) atom)
    else modelBelow program level base bound atom

open Classical in
theorem modelBelow_succ (level : Atom → ℕ) (base : Atom → Bool) (bound : ℕ) (atom : Atom) :
    modelBelow program level base (bound + 1) atom =
      if IsHead program atom ∧ level atom = bound then
        decide (Derives program (modelBelow program level base bound) atom)
      else modelBelow program level base bound atom := rfl

noncomputable def stratifiedModel (program : List (Clause Atom)) (level : Atom → ℕ)
    (base : Atom → Bool) (atom : Atom) : Bool :=
  modelBelow program level base (level atom + 1) atom

theorem modelBelow_given {level : Atom → ℕ} {base : Atom → Bool} (bound : ℕ) {atom : Atom}
    (notHead : ¬ IsHead program atom) : modelBelow program level base bound atom = base atom := by
  induction bound with
  | zero => rfl
  | succ bound inductionHypothesis => simp [modelBelow, notHead, inductionHypothesis]

theorem modelBelow_stable {level : Atom → ℕ} {base : Atom → Bool} {bound : ℕ} {atom : Atom}
    (below : level atom < bound) :
    modelBelow program level base bound atom = stratifiedModel program level base atom := by
  induction bound with
  | zero => omega
  | succ bound inductionHypothesis =>
    by_cases last : level atom = bound
    · rw [stratifiedModel, last]
    · rw [← inductionHypothesis (by omega), modelBelow_succ, if_neg (fun both => last both.2)]

open Classical in
theorem stratifiedModel_isModel {level : Atom → ℕ} (stratifies : Stratifies program level)
    (base : Atom → Bool) : IsModel program base (stratifiedModel program level base) where
  given := fun atom notHead => modelBelow_given _ notHead
  derived := by
    intro atom isHead
    have given (other : Atom) (notHead : ¬ IsHead program other) :
        modelBelow program level base (level atom) other =
          stratifiedModel program level base other := by
      rw [stratifiedModel, modelBelow_given _ notHead, modelBelow_given _ notHead]
    have below (other : Atom) (_ : IsHead program other) (lower : level other < level atom) :
        modelBelow program level base (level atom) other =
          stratifiedModel program level base other := modelBelow_stable lower
    rw [stratifiedModel, modelBelow_succ, if_pos ⟨isHead, rfl⟩, decide_eq_true_eq]
    constructor
    · exact derives_congr stratifies given below fun _ => Nat.le_refl _
    · exact derives_congr stratifies (fun other notHead => (given other notHead).symm)
        (fun other isHead lower => (below other isHead lower).symm) fun _ => Nat.le_refl _

end LogicProgram

end CutPlan.Lib
