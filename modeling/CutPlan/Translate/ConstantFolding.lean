import CutPlan.Translate.GroundNumericAxioms

/-! # Constant axioms

`identify_constants` evaluates the axioms whose operands are all constant and changes them in place.  The
operands are printed before they are evaluated.
-/

namespace CutPlan.Translate

open CutPlan.Sas

namespace InstantiatedNumericAxiom

/-- The value of a constant axiom, from the values of its operands. -/
def fold (numericAxiom : InstantiatedNumericAxiom) (values : List ℚ) : Option ℚ :=
  match values with
  | [] => none
  | [value] =>
    if numericAxiom.op = some .diff then some (-value)
    else if numericAxiom.op = none then some value
    else none
  | values => numericAxiom.op.bind fun op => op.apply (values.map str)

end InstantiatedNumericAxiom

def setConstant (axioms : List InstantiatedNumericAxiom) (effect : Pne) (value : ℚ) :
    List InstantiatedNumericAxiom :=
  axioms.map fun numericAxiom =>
    if numericAxiom.effect = effect then
      { numericAxiom with op := none, parts := [.numericConstant value] }
    else numericAxiom

/-- The loop over the operands stops at the first one that is not constant. -/
def constantValues
    (isConstant : Pne → List InstantiatedNumericAxiom →
      Option (Option ℚ × List InstantiatedNumericAxiom)) :
    List NumericPart → List InstantiatedNumericAxiom →
      Option (Option (List ℚ) × List InstantiatedNumericAxiom)
  | [], axioms => some (some [], axioms)
  | .numericConstant _ :: _, _ => none
  | .pne pne :: parts, axioms => do
    let (value, axioms) ← isConstant pne axioms
    match value with
    | none => return (none, axioms)
    | some value =>
      let (values, axioms) ← constantValues isConstant parts axioms
      return (values.map (value :: ·), axioms)

/-- The fuel bounds the depth of the recursion. -/
def isConstant : ℕ → Pne → List InstantiatedNumericAxiom →
    Option (Option ℚ × List InstantiatedNumericAxiom)
  | 0, _, _ => none
  | fuel + 1, pne, axioms =>
    match axioms.find? (·.effect = pne) with
    | none => some (none, axioms)
    | some numericAxiom =>
      match numericAxiom.op, numericAxiom.parts with
      | none, .numericConstant value :: _ => some (some value, axioms)
      | _, _ => do
        let (values, axioms) ← constantValues (isConstant fuel) numericAxiom.parts axioms
        match values with
        | none => return (none, axioms)
        | some values =>
          let value ← numericAxiom.fold values
          return (some value, setConstant axioms pne value)

/-- The axioms after folding, and the effects of the constant ones. -/
def identifyConstants (axioms : List InstantiatedNumericAxiom) :
    Option (List InstantiatedNumericAxiom × List Pne) :=
  (axioms.map InstantiatedNumericAxiom.effect).foldlM
    (fun (axioms, constantAxioms) effect => do
      let (value, axioms) ← isConstant (effect.depth + 1) effect axioms
      return (axioms, if value.isSome then constantAxioms ++ [effect] else constantAxioms))
    (axioms, [])

namespace NumericFacts

variable {facts : NumericFacts}

/-! ## Settled operands -/

theorem all_settle (pne : Pne) : (facts.settle pne).all facts.isStatic = pne.all facts.isStatic := by
  obtain ⟨symbol, args⟩ := pne
  cases symbol with
  | function name =>
    cases hasValue : facts.static name args with
    | none => simp [settle, hasValue]
    | some value => simp [settle, hasValue, Pne.all, Symbol.all, isStatic]
  | constant _ | inverse _ | operation _ _ => rfl

theorem eval_settle {functions : String → List String → Option ℚ}
    (agree : ∀ name args value, facts.static name args = some value → functions name args = some value)
    (pne : Pne) : (facts.settle pne).eval functions = pne.eval functions := by
  obtain ⟨symbol, args⟩ := pne
  cases symbol with
  | function name =>
    cases hasValue : facts.static name args with
    | none => simp [settle, hasValue]
    | some value => simp [settle, hasValue, Pne.eval, Symbol.eval, agree name args value hasValue]
  | constant _ | inverse _ | operation _ _ => rfl

theorem depth_settle (pne : Pne) : (facts.settle pne).depth = pne.depth := by
  obtain ⟨symbol, args⟩ := pne
  cases symbol with
  | function name =>
    cases hasValue : facts.static name args with
    | none => simp [settle, hasValue]
    | some value => simp [settle, hasValue, Pne.depth, Symbol.depth]
  | constant _ | inverse _ | operation _ _ => rfl

/-! ## Folded axioms -/

def foldedAxiom (effect : Pne) (value : ℚ) : InstantiatedNumericAxiom :=
  { op := none, parts := [.numericConstant value], effect }

/-- The value of a function that does not depend on the state. -/
def HasConstant (facts : NumericFacts) (pne : Pne) (value : ℚ) : Prop :=
  pne.all facts.isStatic = true ∧ pne.eval facts.static = some value

def Folds (facts : NumericFacts) (numericAxiom folded : InstantiatedNumericAxiom) : Prop :=
  folded = numericAxiom ∨
    ∃ value, facts.HasConstant numericAxiom.effect value ∧ folded = foldedAxiom numericAxiom.effect value

/-- Some axioms have been folded. -/
def Folding (facts : NumericFacts) (axioms folded : List InstantiatedNumericAxiom) : Prop :=
  List.Forall₂ facts.Folds axioms folded

def IsFolded (facts : NumericFacts) (folded : List InstantiatedNumericAxiom) (pne : Pne) : Prop :=
  ∃ value, facts.HasConstant pne value ∧ foldedAxiom pne value ∈ folded

theorem Folds.effect_eq {numericAxiom folded : InstantiatedNumericAxiom}
    (folds : facts.Folds numericAxiom folded) : folded.effect = numericAxiom.effect := by
  obtain rfl | ⟨value, _, rfl⟩ := folds
  · rfl
  · rfl

theorem Folding.refl (axioms : List InstantiatedNumericAxiom) : facts.Folding axioms axioms :=
  List.forall₂_same.mpr fun _ _ => .inl rfl

theorem Folding.effects {axioms folded : List InstantiatedNumericAxiom}
    (folding : facts.Folding axioms folded) :
    folded.map InstantiatedNumericAxiom.effect = axioms.map InstantiatedNumericAxiom.effect := by
  induction folding with
  | nil => rfl
  | cons first rest inductionHypothesis => simp [first.effect_eq, inductionHypothesis]

theorem Folding.exists_of_mem {axioms folded : List InstantiatedNumericAxiom}
    (folding : facts.Folding axioms folded) {found : InstantiatedNumericAxiom} (isFolded : found ∈ folded) :
    ∃ numericAxiom ∈ axioms, facts.Folds numericAxiom found := by
  induction folding with
  | nil => cases isFolded
  | cons first rest inductionHypothesis =>
    obtain rfl | isLater := List.mem_cons.mp isFolded
    · exact ⟨_, List.mem_cons_self .., first⟩
    · obtain ⟨numericAxiom, isAxiom, folds⟩ := inductionHypothesis isLater
      exact ⟨numericAxiom, List.mem_cons_of_mem _ isAxiom, folds⟩

theorem Folding.setConstant {axioms folded : List InstantiatedNumericAxiom} {pne : Pne} {value : ℚ}
    (folding : facts.Folding axioms folded) (hasConstant : facts.HasConstant pne value) :
    facts.Folding axioms (setConstant folded pne value) := by
  induction folding with
  | nil => exact .nil
  | cons first rest inductionHypothesis =>
    refine .cons ?_ inductionHypothesis
    dsimp only
    split
    · rename_i same
      rw [first.effect_eq] at same
      subst same
      exact .inr ⟨value, hasConstant, by rw [foldedAxiom, ← first.effect_eq]⟩
    · exact first

theorem IsFolded.setConstant {folded : List InstantiatedNumericAxiom} {pne effect : Pne} {value : ℚ}
    (isFolded : facts.IsFolded folded pne) (hasConstant : facts.HasConstant effect value) :
    facts.IsFolded (setConstant folded effect value) pne := by
  obtain ⟨constant, isConstant, isMember⟩ := isFolded
  by_cases same : pne = effect
  · exact ⟨value, same ▸ hasConstant, List.mem_map.mpr ⟨_, isMember, if_pos same⟩⟩
  · exact ⟨constant, isConstant, List.mem_map.mpr ⟨_, isMember, if_neg same⟩⟩

theorem isFolded_setConstant {folded : List InstantiatedNumericAxiom} {pne : Pne} {value : ℚ}
    (present : ∃ numericAxiom ∈ folded, numericAxiom.effect = pne)
    (hasConstant : facts.HasConstant pne value) : facts.IsFolded (setConstant folded pne value) pne := by
  obtain ⟨numericAxiom, isMember, rfl⟩ := present
  exact ⟨value, hasConstant, List.mem_map.mpr ⟨numericAxiom, isMember, by simp [foldedAxiom]⟩⟩

/-! ## The recursion -/

/-- What looking at a function tells: its value if it is constant, and then its axiom is folded. -/
structure Detects (facts : NumericFacts) (axioms folded : List InstantiatedNumericAxiom) (pne : Pne)
    (value : Option ℚ) (changed : List InstantiatedNumericAxiom) : Prop where
  folding : facts.Folding axioms changed
  keeps : ∀ effect, facts.IsFolded folded effect → facts.IsFolded changed effect
  constant : ∀ found, value = some found →
    facts.HasConstant pne found ∧ str found = found ∧ facts.IsFolded changed pne
  variable_ : value = none → pne.all facts.isStatic = false

/-- The same for a list of operands. -/
structure DetectsAll (facts : NumericFacts) (axioms folded : List InstantiatedNumericAxiom)
    (parts : List Pne) (values : Option (List ℚ)) (changed : List InstantiatedNumericAxiom) : Prop where
  folding : facts.Folding axioms changed
  keeps : ∀ effect, facts.IsFolded folded effect → facts.IsFolded changed effect
  constant : ∀ found, values = some found →
    List.Forall₂ (fun part value => facts.HasConstant part value ∧ str value = value) parts found
  variable_ : values = none → ∃ part ∈ parts, part.all facts.isStatic = false

variable {axioms folded : List InstantiatedNumericAxiom}

theorem constantValues_detects
    {test : Pne → List InstantiatedNumericAxiom → Option (Option ℚ × List InstantiatedNumericAxiom)}
    {parts : List Pne}
    (detects : ∀ part ∈ parts, ∀ folded, facts.Folding axioms folded →
      ∃ value changed, test part folded = some (value, changed) ∧
        facts.Detects axioms folded part value changed)
    (folding : facts.Folding axioms folded) :
    ∃ values changed, constantValues test (parts.map .pne) folded = some (values, changed) ∧
      facts.DetectsAll axioms folded parts values changed := by
  induction parts generalizing folded with
  | nil => exact ⟨some [], folded, rfl, folding, fun _ => id, by simp, by simp⟩
  | cons part parts inductionHypothesis =>
    rw [List.forall_mem_cons] at detects
    obtain ⟨value, first, tested, firstDetects⟩ := detects.1 folded folding
    cases value with
    | none =>
      refine ⟨none, first, by simp [constantValues, tested], firstDetects.folding, firstDetects.keeps,
        by simp, fun _ => ?_⟩
      exact ⟨part, List.mem_cons_self .., firstDetects.variable_ rfl⟩
    | some value =>
      obtain ⟨values, changed, tests, restDetects⟩ :=
        inductionHypothesis detects.2 firstDetects.folding
      refine ⟨values.map (value :: ·), changed, by simp [constantValues, tested, tests],
        restDetects.folding, fun effect isFolded => restDetects.keeps effect (firstDetects.keeps effect isFolded),
        ?_, ?_⟩
      · intro found isFound
        obtain ⟨rest, isRest, rfl⟩ := Option.map_eq_some_iff.mp isFound
        obtain ⟨hasConstant, printed, _⟩ := firstDetects.constant value rfl
        exact .cons ⟨hasConstant, printed⟩ (restDetects.constant rest isRest)
      · intro isNone
        obtain ⟨variable_, isPart, notConstant⟩ := restDetects.variable_ (by simpa using isNone)
        exact ⟨variable_, List.mem_cons_of_mem _ isPart, notConstant⟩

/-- Folding computes the value that the symbol says. -/
theorem fold_eq {pne : Pne} {values : List ℚ} {op : CalOperator} (derived : pne.symbol.IsDerived)
    (operator : pne.operator = some op)
    (constants : List.Forall₂ (fun part value => facts.HasConstant part value ∧ str value = value)
      (pne.operands.map facts.settle) values)
    {value : ℚ} (evaluates : pne.eval facts.static = some value) :
    (facts.groundAxiom pne).fold values = some value := by
  obtain ⟨found, areValues, combines⟩ := (Pne.eval_eq_some operator).mp evaluates
  -- The constants are the values of the operands, and printing does not change them.
  have sameValues : found = values ∧ values.map str = values := by
    rw [List.forall₂_map_left_iff] at constants
    clear combines
    generalize pne.operands = operands at areValues constants
    induction constants generalizing found with
    | nil => cases areValues; simp
    | cons isConstant rest inductionHypothesis =>
      cases areValues with
      | cons isValue areRest =>
        obtain ⟨⟨_, evaluated⟩, printed⟩ := isConstant
        rw [eval_settle (fun _ _ _ => id), isValue] at evaluated
        cases evaluated
        obtain ⟨rfl, printedRest⟩ := inductionHypothesis _ areRest
        simp [printed, printedRest]
  obtain ⟨rfl, printed⟩ := sameValues
  obtain ⟨symbol, args⟩ := pne
  cases symbol with
  | function name => simp [Pne.operator] at operator
  | constant text => simp [Pne.operator] at operator
  | inverse part =>
    cases found with
    | nil => simp [Pne.combine] at combines
    | cons single more =>
      cases more with
      | nil => simpa [Pne.combine, InstantiatedNumericAxiom.fold, groundAxiom, Pne.operator] using combines
      | cons second rest => simp [Pne.combine] at combines
  | operation op' parts =>
    have several : 2 ≤ found.length := by
      rw [← areValues.length_eq, Pne.operands, Pne.symbol_mk, Pne.regroup_length]
      exact derived
    cases found with
    | nil => simp at several
    | cons first more =>
      cases more with
      | nil => simp at several
      | cons second rest =>
        have folds : (facts.groundAxiom (.mk (.operation op' parts) args)).fold (first :: second :: rest) =
            op'.apply ((first :: second :: rest).map str) := rfl
        rw [folds, printed]
        exact combines

theorem HasConstant.unique {pne : Pne} {value value' : ℚ} (first : facts.HasConstant pne value)
    (second : facts.HasConstant pne value') : value = value' :=
  Option.some.inj (first.2.symm.trans second.2)

theorem Printable.constant {pne : Pne} (printable : facts.Printable pne)
    (isStatic : pne.all facts.isStatic = true) : ∃ value, facts.HasConstant pne value ∧ str value = value := by
  rw [Printable, if_pos isStatic] at printable
  obtain ⟨value, evaluates, printed⟩ := printable
  exact ⟨value, ⟨isStatic, evaluates⟩, printed⟩

theorem Printable.printed {pne : Pne} (printable : facts.Printable pne) {value : ℚ}
    (hasConstant : facts.HasConstant pne value) : str value = value := by
  obtain ⟨found, foundConstant, printed⟩ := printable.constant hasConstant.1
  rwa [hasConstant.unique foundConstant]

theorem Printable.two_operands {pne : Pne} (printable : facts.Printable pne)
    (derived : pne.symbol.IsDerived) (notStatic : pne.all facts.isStatic = false) :
    ∃ op first second, pne.symbol = .operation op [first, second] := by
  rw [Printable, notStatic, if_neg (by simp)] at printable
  obtain ⟨symbol, args⟩ := pne
  cases symbol with
  | function name => exact derived.elim
  | constant text => cases notStatic
  | inverse part => exact printable.elim
  | operation op parts =>
    obtain ⟨first, second, rfl⟩ := List.length_eq_two.mp printable
    exact ⟨op, first, second, rfl⟩

/-- An axiom that is not folded is the one that computes its effect. -/
theorem GroundAxioms.find_cases (ground : facts.GroundAxioms axioms) (folding : facts.Folding axioms folded)
    {pne : Pne} {found : InstantiatedNumericAxiom}
    (isFound : folded.find? (·.effect = pne) = some found) :
    found ∈ folded ∧ pne.symbol.IsDerived ∧ facts.Printable pne ∧
      (∀ operand ∈ pne.operands, facts.Settled axioms (facts.settle operand)) ∧
      (found = facts.groundAxiom pne ∨
        ∃ value, facts.HasConstant pne value ∧ found = foldedAxiom pne value) := by
  have isMember := List.mem_of_find?_eq_some isFound
  have isEffect : found.effect = pne := by simpa using List.find?_some isFound
  obtain ⟨numericAxiom, isAxiom, folds⟩ := folding.exists_of_mem isMember
  have sameEffect : numericAxiom.effect = pne := by rw [← folds.effect_eq, isEffect]
  subst sameEffect
  refine ⟨isMember, ground.derived _ isAxiom, ground.printable _ isAxiom, ground.closed _ isAxiom, ?_⟩
  obtain rfl | folded := folds
  · exact .inl (ground.computes _ isAxiom)
  · exact .inr folded

/-- Only fluents have no axiom. -/
theorem Settled.variable_of_not_found {pne : Pne} (settled : facts.Settled axioms pne)
    (folding : facts.Folding axioms folded) (notFound : folded.find? (·.effect = pne) = none) :
    pne.all facts.isStatic = false := by
  obtain ⟨symbol, args⟩ := pne
  cases symbol with
  | function name =>
    have fluent : facts.fluentFunctions name args = true := settled
    simp [Pne.all, Symbol.all, isStatic, static, fluent]
  | constant _ | inverse _ | operation _ _ =>
    obtain ⟨numericAxiom, isAxiom, isEffect⟩ := settled
    have isEffect' : numericAxiom.effect ∈ folded.map InstantiatedNumericAxiom.effect := by
      rw [folding.effects]
      exact List.mem_map_of_mem isAxiom
    obtain ⟨found, isMember, sameEffect⟩ := List.mem_map.mp isEffect'
    have absent := List.find?_eq_none.mp notFound found isMember
    simp [sameEffect, isEffect] at absent

theorem groundAxiom_of_operator (facts : NumericFacts) {pne : Pne} {op : CalOperator}
    (operator : pne.operator = some op) :
    facts.groundAxiom pne =
      { op := some op, parts := (pne.operands.map facts.settle).map .pne, effect := pne } := by
  obtain ⟨symbol, args⟩ := pne
  cases symbol with
  | function name => simp [Pne.operator] at operator
  | constant text => simp [Pne.operator] at operator
  | inverse part => simp [groundAxiom, operator]
  | operation op' parts => simp [groundAxiom, operator]

theorem all_of_constants {parts : List Pne} {values : List ℚ}
    (constants : List.Forall₂ (fun part value => facts.HasConstant part value ∧ str value = value)
      parts values) : ∀ part ∈ parts, part.all facts.isStatic = true := by
  induction constants with
  | nil => simp
  | cons first rest inductionHypothesis =>
    rw [List.forall_mem_cons]
    exact ⟨first.1.1, inductionHypothesis⟩

theorem isConstant_operation {fuel : ℕ} {pne : Pne} {op : CalOperator} (operator : pne.operator = some op)
    (derived : pne.symbol.IsDerived) (printable : facts.Printable pne) (folding : facts.Folding axioms folded)
    (isFound : folded.find? (·.effect = pne) = some (facts.groundAxiom pne))
    (detectsParts : ∀ part ∈ pne.operands.map facts.settle, ∀ folded, facts.Folding axioms folded →
      ∃ value changed, isConstant fuel part folded = some (value, changed) ∧
        facts.Detects axioms folded part value changed) :
    ∃ value changed, isConstant (fuel + 1) pne folded = some (value, changed) ∧
      facts.Detects axioms folded pne value changed := by
  obtain ⟨values, changed, evaluates, detects⟩ := constantValues_detects detectsParts folding
  have unfolds := groundAxiom_of_operator facts operator
  cases values with
  | none =>
    refine ⟨none, changed, ?_, detects.folding, detects.keeps, by simp, fun _ => ?_⟩
    · rw [isConstant, isFound, unfolds]
      simp only [evaluates, Option.bind_eq_bind, Option.bind_some, Option.pure_def]
    obtain ⟨part, isPart, notConstant⟩ := detects.variable_ rfl
    obtain ⟨operand, isOperand, rfl⟩ := List.mem_map.mp isPart
    rw [Bool.eq_false_iff, Ne, Pne.all_iff operator]
    intro allStatic
    rw [all_settle, allStatic operand isOperand] at notConstant
    cases notConstant
  | some values =>
    have constants := detects.constant values rfl
    have isStatic : pne.all facts.isStatic = true := by
      rw [Pne.all_iff operator]
      intro operand isOperand
      rw [← all_settle]
      exact all_of_constants constants _ (List.mem_map_of_mem isOperand)
    obtain ⟨value, hasConstant, printed⟩ := printable.constant isStatic
    have folds := fold_eq derived operator constants hasConstant.2
    refine ⟨some value, setConstant changed pne value, ?_, detects.folding.setConstant hasConstant,
      ?_, ?_, by simp⟩
    · rw [isConstant, isFound]
      rw [unfolds] at folds ⊢
      simp only [evaluates, folds, Option.bind_eq_bind, Option.bind_some, Option.pure_def]
    · intro effect isFolded
      exact (detects.keeps effect isFolded).setConstant hasConstant
    · intro found isValue
      cases isValue
      refine ⟨hasConstant, printed, isFolded_setConstant ?_ hasConstant⟩
      have isEffect : pne ∈ changed.map InstantiatedNumericAxiom.effect := by
        rw [detects.folding.effects, ← folding.effects]
        exact List.mem_map.mpr ⟨_, List.mem_of_find?_eq_some isFound, groundAxiom_effect pne⟩
      simpa using isEffect

theorem isConstant_detects (ground : facts.GroundAxioms axioms) {fuel : ℕ} {pne : Pne}
    (folding : facts.Folding axioms folded) (settled : facts.Settled axioms pne)
    (enough : pne.depth < fuel) :
    ∃ value changed, isConstant fuel pne folded = some (value, changed) ∧
      facts.Detects axioms folded pne value changed := by
  induction fuel generalizing pne folded with
  | zero => omega
  | succ fuel inductionHypothesis =>
    cases isFound : folded.find? (·.effect = pne) with
    | none =>
      exact ⟨none, folded, by simp [isConstant, isFound], folding, fun _ => id, by simp,
        fun _ => settled.variable_of_not_found folding isFound⟩
    | some found =>
      obtain ⟨isMember, derived, printable, closed, rfl | ⟨value, hasConstant, rfl⟩⟩ :=
        ground.find_cases folding isFound
      · cases operator : pne.operator with
        | none =>
          obtain ⟨symbol, args⟩ := pne
          cases symbol with
          | function name => exact derived.elim
          | inverse part => simp [Pne.operator] at operator
          | operation op parts => simp [Pne.operator] at operator
          | constant text =>
            have hasConstant : facts.HasConstant (.mk (.constant text) args) text := ⟨rfl, rfl⟩
            refine ⟨some text, folded, by simp [isConstant, isFound, groundAxiom], folding, fun _ => id, ?_,
              by simp⟩
            intro found isValue
            cases isValue
            exact ⟨hasConstant, printable.printed hasConstant, text, hasConstant, isMember⟩
        | some op =>
          apply isConstant_operation operator derived printable folding isFound
          rw [List.forall_mem_map]
          intro operand isOperand folded folding
          apply inductionHypothesis folding (closed operand isOperand)
          have smaller := Pne.depth_operand_lt isOperand
          rw [depth_settle]
          omega
      · refine ⟨some value, folded, by simp [isConstant, isFound, foldedAxiom], folding, fun _ => id, ?_,
          by simp⟩
        intro found isValue
        cases isValue
        exact ⟨hasConstant, printable.printed hasConstant, value, hasConstant, isMember⟩

/-! ## All axioms -/

/-- What the loop over the axioms has found out. -/
structure Identifies (facts : NumericFacts) (axioms : List InstantiatedNumericAxiom) (processed : List Pne)
    (folded : List InstantiatedNumericAxiom) (constantAxioms : List Pne) : Prop where
  folding : facts.Folding axioms folded
  constant : ∀ pne ∈ constantAxioms, pne ∈ processed ∧ pne.all facts.isStatic = true ∧
    facts.IsFolded folded pne
  variable_ : ∀ pne ∈ processed, pne ∉ constantAxioms → pne.all facts.isStatic = false

theorem foldlM_isConstant (ground : facts.GroundAxioms axioms) {processed effects : List Pne}
    {constantAxioms : List Pne} (settled : ∀ effect ∈ effects, facts.Settled axioms effect)
    (identifies : facts.Identifies axioms processed folded constantAxioms) :
    ∃ result, effects.foldlM (fun (axioms, constantAxioms) effect => do
        let (value, axioms) ← isConstant (effect.depth + 1) effect axioms
        return (axioms, if value.isSome then constantAxioms ++ [effect] else constantAxioms))
        (folded, constantAxioms) = some result ∧
      facts.Identifies axioms (processed ++ effects) result.1 result.2 := by
  induction effects generalizing processed folded constantAxioms with
  | nil => exact ⟨_, rfl, by simpa using identifies⟩
  | cons effect effects inductionHypothesis =>
    rw [List.forall_mem_cons] at settled
    obtain ⟨value, changed, tests, detects⟩ :=
      isConstant_detects ground identifies.folding settled.1 (Nat.lt_succ_self effect.depth)
    have next : facts.Identifies axioms (processed ++ [effect]) changed
        (if value.isSome then constantAxioms ++ [effect] else constantAxioms) := by
      refine ⟨detects.folding, ?_, ?_⟩
      · intro pne isConstant
        have isOld : pne ∈ constantAxioms → pne ∈ processed ++ [effect] ∧ pne.all facts.isStatic = true ∧
            facts.IsFolded changed pne := by
          intro isOld
          obtain ⟨isProcessed, isStatic, isFolded⟩ := identifies.constant pne isOld
          exact ⟨List.mem_append_left _ isProcessed, isStatic, detects.keeps pne isFolded⟩
        cases value with
        | none => exact isOld isConstant
        | some value =>
          obtain isEarlier | rfl := by simpa using isConstant
          · exact isOld isEarlier
          · obtain ⟨hasConstant, _, isFolded⟩ := detects.constant value rfl
            exact ⟨by simp, hasConstant.1, isFolded⟩
      · intro pne isProcessed notConstant
        obtain isEarlier | rfl := by simpa using isProcessed
        · apply identifies.variable_ pne isEarlier
          intro isConstant
          apply notConstant
          split
          · exact List.mem_append_left _ isConstant
          · exact isConstant
        · cases value with
          | none => exact detects.variable_ rfl
          | some value => simp at notConstant
    obtain ⟨result, continues, final⟩ := inductionHypothesis settled.2 next
    refine ⟨result, ?_, by simpa using final⟩
    rw [List.foldlM_cons]
    simp only [tests, Option.bind_eq_bind, Option.bind_some, Option.pure_def]
    exact continues

/-- The axioms after folding: constants, and axioms with two operands. -/
structure FoldedAxioms (facts : NumericFacts) (folded : List InstantiatedNumericAxiom)
    (constantAxioms : List Pne) : Prop where
  nodup : (folded.map InstantiatedNumericAxiom.effect).Nodup
  derived : ∀ numericAxiom ∈ folded, numericAxiom.effect.symbol.IsDerived
  constant : ∀ pne ∈ constantAxioms,
    ∃ value, facts.HasConstant pne value ∧ str value = value ∧ foldedAxiom pne value ∈ folded
  computed : ∀ numericAxiom ∈ folded, numericAxiom.effect ∉ constantAxioms →
    numericAxiom = facts.groundAxiom numericAxiom.effect ∧
      ∃ op first second, numericAxiom.effect.symbol = .operation op [first, second]
  closed : ∀ numericAxiom ∈ folded, numericAxiom.effect ∉ constantAxioms →
    ∀ operand ∈ numericAxiom.effect.operands, facts.Settled folded (facts.settle operand)

theorem Settled.of_effects {folded : List InstantiatedNumericAxiom}
    (effects : folded.map InstantiatedNumericAxiom.effect = axioms.map InstantiatedNumericAxiom.effect)
    {pne : Pne} (settled : facts.Settled axioms pne) : facts.Settled folded pne := by
  obtain ⟨symbol, args⟩ := pne
  cases symbol with
  | function name => exact settled
  | constant _ | inverse _ | operation _ _ =>
    obtain ⟨numericAxiom, isAxiom, isEffect⟩ := settled
    have isEffect' : numericAxiom.effect ∈ folded.map InstantiatedNumericAxiom.effect := by
      rw [effects]
      exact List.mem_map_of_mem isAxiom
    obtain ⟨found, isFound, sameEffect⟩ := List.mem_map.mp isEffect'
    exact ⟨found, isFound, sameEffect.trans isEffect⟩

theorem identifyConstants_eq (ground : facts.GroundAxioms axioms) :
    ∃ folded constantAxioms, identifyConstants axioms = some (folded, constantAxioms) ∧
      facts.FoldedAxioms folded constantAxioms ∧
      folded.map InstantiatedNumericAxiom.effect = axioms.map InstantiatedNumericAxiom.effect := by
  have settled : ∀ effect ∈ axioms.map InstantiatedNumericAxiom.effect, facts.Settled axioms effect := by
    rw [List.forall_mem_map]
    intro numericAxiom isAxiom
    have derived := ground.derived numericAxiom isAxiom
    unfold Settled
    split
    · rename_i isFunction
      rw [isFunction] at derived
      exact derived.elim
    · exact ⟨numericAxiom, isAxiom, rfl⟩
  have start : facts.Identifies axioms [] axioms [] := ⟨.refl axioms, by simp, by simp⟩
  obtain ⟨⟨folded, constantAxioms⟩, runs, identifies⟩ := foldlM_isConstant ground settled start
  have effects := identifies.folding.effects
  refine ⟨folded, constantAxioms, runs, ?_, effects⟩
  have unchanged : ∀ numericAxiom ∈ folded, numericAxiom.effect ∉ constantAxioms →
      numericAxiom ∈ axioms ∧ numericAxiom.effect.all facts.isStatic = false := by
    intro found isFound notConstant
    obtain ⟨numericAxiom, isAxiom, folds⟩ := identifies.folding.exists_of_mem isFound
    have notStatic := identifies.variable_ found.effect
      (by rw [folds.effect_eq]; exact List.mem_map_of_mem isAxiom) notConstant
    obtain rfl | ⟨value, hasConstant, rfl⟩ := folds
    · exact ⟨isAxiom, notStatic⟩
    · rw [foldedAxiom, hasConstant.1] at notStatic
      cases notStatic
  exact {
    nodup := by
      rw [effects]
      exact ground.nodup
    derived := by
      intro found isFound
      obtain ⟨numericAxiom, isAxiom, folds⟩ := identifies.folding.exists_of_mem isFound
      rw [folds.effect_eq]
      exact ground.derived numericAxiom isAxiom
    constant := by
      intro pne isConstant
      obtain ⟨_, isStatic, value, hasConstant, isFolded⟩ := identifies.constant pne isConstant
      obtain ⟨numericAxiom, isAxiom, folds⟩ := identifies.folding.exists_of_mem isFolded
      have printable := ground.printable numericAxiom isAxiom
      rw [← folds.effect_eq] at printable
      exact ⟨value, hasConstant, printable.printed hasConstant, isFolded⟩
    computed := by
      intro numericAxiom isFound notConstant
      obtain ⟨isAxiom, notStatic⟩ := unchanged numericAxiom isFound notConstant
      refine ⟨ground.computes numericAxiom isAxiom, ?_⟩
      exact (ground.printable numericAxiom isAxiom).two_operands (ground.derived numericAxiom isAxiom) notStatic
    closed := by
      intro numericAxiom isFound notConstant operand isOperand
      exact (ground.closed numericAxiom (unchanged numericAxiom isFound notConstant).1 operand
        isOperand).of_effects effects }

end NumericFacts

end CutPlan.Translate
