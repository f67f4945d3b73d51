import CutPlan.Translate.LayeredEvaluation

/-! # Derived predicates after axiom processing

Every derived literal that an operator, the goal or the constraint asks for keeps its truth value, unless
it is asked for only by a numeric effect, recursion is needed only negated, or recursion reads a default.
-/

namespace CutPlan.Translate.AxiomRules

open CutPlan.Lib

variable {Atom : Type} [DecidableEq Atom]

/-! ## The result of the processing -/

/-- The literals whose truth an operator, the goal or the constraint asks for. -/
inductive Occurs (operators : List (PropositionalAction Atom)) (goalList : List (Literal Atom))
    (globalConstraint : Literal Atom) : Literal Atom → Prop
  | goal {literal : Literal Atom} : literal ∈ goalList →
      Occurs operators goalList globalConstraint literal
  | constraint : Occurs operators goalList globalConstraint globalConstraint
  | precondition {op : PropositionalAction Atom} {literal : Literal Atom} : op ∈ operators →
      literal ∈ op.precondition → Occurs operators goalList globalConstraint literal
  | addCondition {op : PropositionalAction Atom} {effect : List (Literal Atom) × Atom}
      {literal : Literal Atom} : op ∈ operators → effect ∈ op.addEffects → literal ∈ effect.1 →
      Occurs operators goalList globalConstraint literal
  | delCondition {op : PropositionalAction Atom} {effect : List (Literal Atom) × Atom}
      {literal : Literal Atom} : op ∈ operators → effect ∈ op.delEffects → literal ∈ effect.1 →
      Occurs operators goalList globalConstraint literal
  | assignCondition {op : PropositionalAction Atom} {effect : List (Literal Atom) × FunctionAssignment}
      {literal : Literal Atom} : op ∈ operators → effect ∈ op.assignEffects → literal ∈ effect.1 →
      Occurs operators goalList globalConstraint literal

section Preservation

variable (hash : Literal Atom → ℤ) (operators : List (PropositionalAction Atom))
  (axioms : List (PropositionalAxiom Atom)) (goalList : List (Literal Atom))
  (globalConstraint : Literal Atom)

/-- In every state the derived literals that occur have their truth value in the stratified model. -/
def PreservesDerived : Prop :=
  ∃ result, handleAxioms hash operators axioms goalList globalConstraint = some result ∧
    ∀ state model, LogicProgram.IsModel (program axioms) state model →
      ∀ literal, Occurs operators goalList globalConstraint literal →
        isAxiomLiteral axioms literal = true →
        literal.holds (result.evaluate axioms state) = literal.holds model

/-- The derived literals in the conditions of numeric effects are needed for another reason, and
recursion is safe. -/
structure Unaffected : Prop where
  numericConditions : ∀ op ∈ operators, ∀ effect ∈ op.assignEffects, ∀ literal ∈ effect.1,
    isAxiomLiteral axioms literal = true → ∃ negated,
      Needed axioms operators goalList globalConstraint { atom := literal.atom, negated := negated }
  recursion : RecursionSafe hash axioms (Needed axioms operators goalList globalConstraint)

variable {hash operators axioms goalList globalConstraint}

theorem necessary_iff_needed :
    (· ∈ computeNecessaryAxiomLiterals axioms operators goalList globalConstraint) =
      Needed axioms operators goalList globalConstraint := by
  funext literal
  exact propext ⟨needed_of_mem, mem_of_needed⟩

theorem needed_isHead {literal : Literal Atom}
    (needed : Needed axioms operators goalList globalConstraint literal) :
    LogicProgram.IsHead (program axioms) literal.atom := by
  cases needed with
  | goal _ derived => exact isAxiomLiteral_iff_isHead.mp derived
  | constraint derived => exact isAxiomLiteral_iff_isHead.mp derived
  | precondition _ _ derived => exact isAxiomLiteral_iff_isHead.mp derived
  | addCondition _ _ _ derived => exact isAxiomLiteral_iff_isHead.mp derived
  | delCondition _ _ _ derived => exact isAxiomLiteral_iff_isHead.mp derived
  | body _ _ _ _ derived =>
    split
    · exact isAxiomLiteral_iff_isHead.mp derived
    · exact isAxiomLiteral_iff_isHead.mp derived

theorem necessary_closed (positive : ∀ rule ∈ axioms, rule.effect.negated = false) :
    Closed axioms (computeNecessaryAxiomLiterals axioms operators goalList globalConstraint) where
  derived := fun _ member => needed_isHead (needed_of_mem member)
  body := by
    intro needed member rule isRule sameAtom literal isLiteral isHead
    exact mem_of_needed (.body (needed_of_mem member) isRule sameAtom isLiteral
      (isAxiomLiteral_iff_isHead.mpr isHead))
  positive := positive

/-- The atom of a literal that occurs is needed with one of the signs. -/
theorem needed_of_occurs
    (unaffected : Unaffected hash operators axioms goalList globalConstraint) {literal : Literal Atom}
    (occurs : Occurs operators goalList globalConstraint literal)
    (derived : isAxiomLiteral axioms literal = true) : ∃ negated,
      Needed axioms operators goalList globalConstraint { atom := literal.atom, negated := negated } := by
  cases occurs with
  | goal member => exact ⟨_, .goal member derived⟩
  | constraint => exact ⟨_, .constraint derived⟩
  | precondition isOp member => exact ⟨_, .precondition isOp member derived⟩
  | addCondition isOp isEffect member => exact ⟨_, .addCondition isOp isEffect member derived⟩
  | delCondition isOp isEffect member => exact ⟨_, .delCondition isOp isEffect member derived⟩
  | assignCondition isOp isEffect member =>
    exact unaffected.numericConditions _ isOp _ isEffect literal member derived

/-- Without negation all recursion is safe. -/
theorem recursionSafe_of_positive
    (bodies : ∀ rule ∈ axioms, ∀ literal ∈ rule.condition, literal.negated = false)
    {needed : Literal Atom → Prop} (neededPositive : ∀ literal, needed literal → literal.negated = false) :
    RecursionSafe hash axioms needed := by
  have notOnlyNegated (atom : Atom) : ¬ OnlyNegated needed atom := by
    intro onlyNegated
    cases neededPositive _ onlyNegated.1
  intro atom negated isNeeded _
  refine ⟨neededPositive _ isNeeded ▸ isNeeded, ?_⟩
  rintro ⟨user, _, rule, isRule, literal, isLiteral, reads⟩
  obtain ⟨original, isOriginal, _, sameLiterals⟩ := mem_simplify isRule
  have isPositive := bodies original (List.mem_filter.mp isOriginal).1 literal
    ((sameLiterals literal).mp isLiteral)
  simp [isPositive, notOnlyNegated] at reads

end Preservation

/-! ## A plant -/

inductive PlantAtom where
  | valve
  | flow
  | alarm
  deriving DecidableEq, Repr

/-- The flow depends on itself and is read by a precondition and a numeric effect. -/
def flowAxioms : List (PropositionalAxiom PlantAtom) :=
  [{ name := "flow", condition := [⟨.valve, false⟩], effect := ⟨.flow, false⟩ },
    { name := "flow", condition := [⟨.flow, false⟩, ⟨.alarm, false⟩], effect := ⟨.flow, false⟩ }]

def fillOperator (precondition : List (Literal PlantAtom)) : PropositionalAction PlantAtom where
  name := "fill"
  precondition := precondition
  addEffects := []
  delEffects := []
  assignEffects := [([⟨.flow, false⟩], { fluent := 0, symbol := .increase, expression := 1 })]

theorem flow_needed {literal : Literal PlantAtom}
    (needed : Needed flowAxioms [fillOperator [⟨.flow, false⟩]] [] ⟨.valve, false⟩ literal) :
    literal.negated = false := by
  induction needed with
  | goal member _ => cases member
  | constraint _ => rfl
  | precondition isOp member _ =>
    rw [List.mem_singleton] at isOp
    subst isOp
    rw [fillOperator, List.mem_singleton] at member
    rw [member]
  | addCondition isOp isEffect _ _ =>
    rw [List.mem_singleton] at isOp
    subst isOp
    cases isEffect
  | delCondition isOp isEffect _ _ =>
    rw [List.mem_singleton] at isOp
    subst isOp
    cases isEffect
  | body _ isRule _ isLiteral _ inductionHypothesis =>
    rw [inductionHypothesis]
    revert isLiteral
    revert isRule
    simp only [flowAxioms]
    grind

/-- The processing gives an occurring literal another value than a stratified model has. -/
theorem not_preserved {hash : Literal Atom → ℤ} {operators : List (PropositionalAction Atom)}
    {axioms : List (PropositionalAxiom Atom)} {goalList : List (Literal Atom)}
    {globalConstraint : Literal Atom} {level : Atom → ℕ}
    (stratifies : LogicProgram.Stratifies (program axioms) level) (literal : Literal Atom)
    (occurs : Occurs operators goalList globalConstraint literal)
    (derived : isAxiomLiteral axioms literal = true) (state : Atom → Bool) (value : Bool)
    (evaluates : (handleAxioms hash operators axioms goalList globalConstraint).map
      (fun result => result.evaluate axioms state literal.atom) = some value)
    (differs : ∀ model, LogicProgram.IsModel (program axioms) state model →
      model literal.atom = !value) :
    ¬ PreservesDerived hash operators axioms goalList globalConstraint := by
  rintro ⟨result, processes, preserves⟩
  have isModel := LogicProgram.stratifiedModel_isModel stratifies state
  have same := preserves state _ isModel literal occurs derived
  rw [processes, Option.map_some, Option.some.injEq] at evaluates
  rw [Literal.holds, Literal.holds, evaluates, differs _ isModel] at same
  cases value <;> cases sign : literal.negated <;> simp [sign] at same

/-- Only the numeric effect asks for the flow, so its axiom is dropped. -/
def unneededAxioms : List (PropositionalAxiom PlantAtom) :=
  [{ name := "flow", condition := [⟨.valve, false⟩], effect := ⟨.flow, false⟩ }]

/-- An alarm that only an alarm raises. -/
def alarmAxioms : List (PropositionalAxiom PlantAtom) :=
  [{ name := "alarm", condition := [⟨.alarm, false⟩], effect := ⟨.alarm, false⟩ }]

/-- Flow and alarm depend on each other, and the flow on the absence of a fact. -/
def cyclicAxioms : List (PropositionalAxiom PlantAtom) :=
  [{ name := "flow", condition := [⟨.valve, true⟩], effect := ⟨.flow, false⟩ },
    { name := "flow", condition := [⟨.alarm, false⟩], effect := ⟨.flow, false⟩ },
    { name := "alarm", condition := [⟨.flow, false⟩], effect := ⟨.alarm, false⟩ }]

end CutPlan.Translate.AxiomRules
