import CutPlan.Translate.NumericInstantiation

/-! # The instantiated numeric axioms

Instantiation succeeds and yields one axiom for each derived function that is reached, together with the
axioms of all derived functions that this one needs.
-/

namespace CutPlan.Translate

open CutPlan.Sas

/-- Numeric axioms have such symbols. -/
def Symbol.IsDerived : Symbol → Prop
  | .function _ => False
  | .constant _ | .inverse _ => True
  | .operation _ parts => 2 ≤ parts.length

theorem FunctionKey.Exact.isDerived {key : FunctionKey} (exact : key.Exact) : key.symbol.IsDerived := by
  cases key with
  | constant value => trivial
  | inverse symbol => trivial
  | operation op parts => exact exact

namespace NumericFacts

variable (facts : NumericFacts)

def isStatic (name : String) (args : List String) : Bool :=
  (facts.static name args).isSome

/-- If the value does not depend on the state it exists and has at most twelve significant digits, and
otherwise the function is no unary minus and has two operands if any. -/
def Printable (pne : Pne) : Prop :=
  if pne.all facts.isStatic then ∃ value, pne.eval facts.static = some value ∧ str value = value
  else
    match pne.symbol with
    | .inverse _ => False
    | .operation _ parts => parts.length = 2
    | _ => True

/-- A fluent has a variable, everything else an axiom. -/
def Settled (axioms : List InstantiatedNumericAxiom) (pne : Pne) : Prop :=
  match pne.symbol with
  | .function name => facts.fluentFunctions name pne.args = true
  | _ => ∃ numericAxiom ∈ axioms, numericAxiom.effect = pne

structure GroundAxioms (axioms : List InstantiatedNumericAxiom) : Prop where
  nodup : (axioms.map InstantiatedNumericAxiom.effect).Nodup
  computes : ∀ numericAxiom ∈ axioms, numericAxiom = facts.groundAxiom numericAxiom.effect
  printable : ∀ numericAxiom ∈ axioms, facts.Printable numericAxiom.effect
  derived : ∀ numericAxiom ∈ axioms, numericAxiom.effect.symbol.IsDerived
  closed : ∀ numericAxiom ∈ axioms, ∀ operand ∈ numericAxiom.effect.operands,
    facts.Settled axioms (facts.settle operand)

variable {facts}

theorem Printable.printsStatic {pne : Pne} (printable : facts.Printable pne) : facts.PrintsStatic pne := by
  intro name value isFunction hasValue
  have isStatic : pne.all facts.isStatic = true := by
    simp [Pne.all, isFunction, Symbol.all, NumericFacts.isStatic, hasValue]
  rw [Printable, if_pos isStatic] at printable
  obtain ⟨found, evaluates, printed⟩ := printable
  have same : some value = some found := by
    rw [← hasValue, ← evaluates, Pne.eval, isFunction]
    rfl
  cases same
  exact printed

theorem printable_constant {value : ℚ} (printed : str value = value) :
    facts.Printable (.mk (.constant value) []) :=
  ⟨value, rfl, printed⟩

theorem groundAxiom_effect (pne : Pne) : (facts.groundAxiom pne).effect = pne := by
  obtain ⟨symbol, args⟩ := pne
  cases symbol <;> rfl

end NumericFacts

/-- What holds after some atoms of the model have been instantiated. -/
structure NumericInstances.Covered (instances : NumericInstances) (facts : NumericFacts)
    (expressions : List FunctionalExpression) (model processed : List ModelAtom) : Prop where
  sound : instances.Sound
  nodup : (instances.instantiated.map InstantiatedNumericAxiom.effect).Nodup
  instantiated : ∀ numericAxiom ∈ instances.instantiated, ∃ name args,
    .numericAxiom name args ∈ model ∧ name.IsDerived ∧
      numericAxiom = facts.groundAxiom (.mk name args) ∧
      ∀ operand ∈ (Pne.mk name args).operands, instances.Covers facts model (facts.settle operand)
  reached : ∀ name args, .numericAxiom name args ∈ processed →
    ∃ numericAxiom ∈ instances.instantiated, numericAxiom.effect = .mk name args
  occurrences : ∀ occurrence ∈ instances.occurrences,
    occurrence.expression ∈ expressions ∧
      occurrence.pne = facts.settle (occurrence.expression.derived.ground occurrence.mapping) ∧
      instances.Covers facts model occurrence.pne
  occurs : ∀ number mapping, .occurrence number mapping ∈ processed →
    ∃ occurrence ∈ instances.occurrences, expressions[number]? = some occurrence.expression ∧
      occurrence.mapping = mapping

namespace NumericInstances

variable {facts : NumericFacts} {expressions : List FunctionalExpression} {model processed : List ModelAtom}
  {instances grown : NumericInstances}

/-- The new constants are of no harm to what was instantiated before. -/
theorem Covered.grow (covered : instances.Covered facts expressions model processed)
    (sound : grown.Sound) (grows : instances.Grows grown) :
    grown.Covered facts expressions model processed where
  sound := sound
  nodup := by
    rw [grows.instantiated]
    exact covered.nodup
  instantiated := by
    rw [grows.instantiated]
    intro numericAxiom isInstance
    obtain ⟨name, args, reached, derived, computes, operands⟩ :=
      covered.instantiated numericAxiom isInstance
    exact ⟨name, args, reached, derived, computes, fun operand isOperand =>
      (operands operand isOperand).mono grows.constants⟩
  reached := by
    rw [grows.instantiated]
    exact covered.reached
  occurrences := by
    rw [grows.occurrences]
    intro occurrence isOccurrence
    obtain ⟨isExpression, settled, covers⟩ := covered.occurrences occurrence isOccurrence
    exact ⟨isExpression, settled, covers.mono grows.constants⟩
  occurs := by
    rw [grows.occurrences]
    exact covered.occurs

end NumericInstances

namespace NumericFacts

variable {facts : NumericFacts} {expressions : List FunctionalExpression} {model processed : List ModelAtom}
  {instances : NumericInstances} {admin : FunctionAdministrator}

/-- The model's instances can be printed. -/
structure PrintsModel (facts : NumericFacts) (expressions : List FunctionalExpression)
    (model : List ModelAtom) : Prop where
  numericAxiom : ∀ name args, .numericAxiom name args ∈ model → facts.Printable (.mk name args) ∧
    ∀ operand ∈ (Pne.mk name args).operands, facts.Printable operand
  occurrence : ∀ number mapping, .occurrence number mapping ∈ model →
    ∀ expression, expressions[number]? = some expression →
      facts.Printable (expression.derived.ground mapping)

theorem instantiateAtom_occurrence {number : ℕ} {mapping : String → String}
    (covered : instances.Covered facts expressions model processed)
    (supports : facts.Supports expressions admin model) (prints : facts.PrintsModel expressions model)
    (isAtom : .occurrence number mapping ∈ model) :
    ∃ grown, facts.instantiateAtom (expressions.map fun expression => (expression, expression.derived))
        instances (.occurrence number mapping) = some grown ∧
      instances.admin.functions ⊆ grown.admin.functions ∧
      grown.Covered facts expressions model (processed ++ [.occurrence number mapping]) := by
  obtain ⟨expression, isExpression, reached⟩ := supports.occurrence number mapping isAtom
  have printable := prints.occurrence number mapping isAtom expression isExpression
  obtain ⟨grown, instantiates, sound, grows, covers⟩ :=
    instantiatePne_eq covered.sound reached printable.printsStatic
  have grownCovered := covered.grow sound grows
  refine ⟨{ grown with occurrences := grown.occurrences ++
      [⟨expression, mapping, facts.settle (expression.derived.ground mapping)⟩] }, ?_, grows.functions, ?_⟩
  · simp [instantiateAtom, isExpression, instantiates]
  · refine ⟨⟨grownCovered.sound.admin, grownCovered.sound.constants⟩, grownCovered.nodup,
      grownCovered.instantiated, ?_, ?_, ?_⟩
    · intro name args isProcessed
      exact grownCovered.reached name args (by simpa using isProcessed)
    · intro occurrence isOccurrence
      obtain isOld | rfl := by simpa using isOccurrence
      · exact grownCovered.occurrences occurrence isOld
      · exact ⟨List.mem_of_getElem? isExpression, rfl, covers⟩
    · intro number' mapping' isProcessed
      obtain isOld | ⟨rfl, rfl⟩ := by simpa using isProcessed
      · obtain ⟨occurrence, isOccurrence, same⟩ := grownCovered.occurs number' mapping' isOld
        exact ⟨occurrence, List.mem_append_left _ isOccurrence, same⟩
      · exact ⟨_, List.mem_append_right _ (List.mem_singleton_self _), isExpression, rfl⟩

theorem instantiateAtom_numericAxiom {name : Symbol} {args : List String}
    (covered : instances.Covered facts expressions model processed)
    (supports : facts.Supports expressions admin model) (prints : facts.PrintsModel expressions model)
    (functions : admin.functions ⊆ instances.admin.functions)
    (isAtom : .numericAxiom name args ∈ model) :
    ∃ grown, facts.instantiateAtom (expressions.map fun expression => (expression, expression.derived))
        instances (.numericAxiom name args) = some grown ∧
      instances.admin.functions ⊆ grown.admin.functions ∧
      grown.Covered facts expressions model (processed ++ [.numericAxiom name args]) := by
  obtain ⟨⟨known, isKnown, hasName, hasArity⟩, reached⟩ := supports.numericAxiom name args isAtom
  have printable := prints.numericAxiom name args isAtom
  have isEntry := functions isKnown
  have found : ∃ entry, instances.admin.functions.find? (·.2.name = name) = some entry := by
    rw [← Option.isSome_iff_exists, List.find?_isSome]
    exact ⟨known, isEntry, by simp [hasName]⟩
  obtain ⟨entry, isFound⟩ := found
  -- Names belong to one key, so that the axiom found is the one that was reached.
  have isMember := List.mem_of_find?_eq_some isFound
  have exact := covered.sound.admin.exact entry isMember
  have isAxiom := covered.sound.admin.numericAxiom entry isMember
  have foundName : entry.1.symbol = name := by
    rw [← exact.name_eq, ← isAxiom]
    simpa using List.find?_some isFound
  have sameKey : entry.1 = known.1 := by
    have exactKnown := covered.sound.admin.exact known isEntry
    apply exact.symbol_inj exactKnown
    rw [foundName, ← hasName, covered.sound.admin.numericAxiom known isEntry, exactKnown.name_eq]
  have arity : entry.1.numericAxiom.parameters.length = args.length := by
    rw [← hasArity, covered.sound.admin.numericAxiom known isEntry, sameKey]
  subst foundName
  obtain ⟨grown, instantiates, sound, grows, covers⟩ :=
    instantiateAxiom_eq covered.sound exact arity reached
      (fun operand isOperand => (printable.2 operand isOperand).printsStatic)
  have grownCovered := covered.grow sound grows
  refine ⟨{ grown with
      instantiated := addAxiom grown.instantiated (facts.groundAxiom (.mk entry.1.symbol args)) },
    ?_, grows.functions, ?_⟩
  · simp [instantiateAtom, isFound, isAxiom, instantiates]
  · refine ⟨⟨grownCovered.sound.admin, grownCovered.sound.constants⟩,
      nodup_addAxiom grownCovered.nodup _, ?_, ?_, grownCovered.occurrences, ?_⟩
    · intro numericAxiom isInstance
      obtain isOld | rfl := mem_addAxiom isInstance
      · exact grownCovered.instantiated numericAxiom isOld
      · exact ⟨entry.1.symbol, args, isAtom, exact.isDerived, rfl, covers⟩
    · intro name' args' isProcessed
      obtain isOld | ⟨rfl, rfl⟩ := by simpa using isProcessed
      · obtain ⟨numericAxiom, isInstance, isEffect⟩ := grownCovered.reached name' args' isOld
        exact ⟨numericAxiom, subset_addAxiom _ _ isInstance, isEffect⟩
      · have added := exists_effect_addAxiom grown.instantiated
          (facts.groundAxiom (.mk entry.1.symbol args'))
        rwa [groundAxiom_effect] at added
    · intro number mapping isProcessed
      exact grownCovered.occurs number mapping (by simpa using isProcessed)

theorem foldlM_instantiateAtom (supports : facts.Supports expressions admin model)
    (prints : facts.PrintsModel expressions model) {atoms : List ModelAtom} (areAtoms : atoms ⊆ model)
    (functions : admin.functions ⊆ instances.admin.functions)
    (covered : instances.Covered facts expressions model processed) :
    ∃ grown, atoms.foldlM (facts.instantiateAtom
        (expressions.map fun expression => (expression, expression.derived))) instances = some grown ∧
      grown.Covered facts expressions model (processed ++ atoms) := by
  induction atoms generalizing instances processed with
  | nil => exact ⟨instances, rfl, by simpa using covered⟩
  | cons atom atoms inductionHypothesis =>
    rw [List.cons_subset] at areAtoms
    have step : ∃ grown, facts.instantiateAtom
        (expressions.map fun expression => (expression, expression.derived)) instances atom = some grown ∧
        instances.admin.functions ⊆ grown.admin.functions ∧
        grown.Covered facts expressions model (processed ++ [atom]) := by
      cases atom with
      | occurrence number mapping => exact instantiateAtom_occurrence covered supports prints areAtoms.1
      | numericAxiom name args =>
        exact instantiateAtom_numericAxiom covered supports prints functions areAtoms.1
    obtain ⟨next, instantiates, grows, nextCovered⟩ := step
    obtain ⟨grown, rest, grownCovered⟩ :=
      inductionHypothesis areAtoms.2 (List.Subset.trans functions grows) nextCovered
    refine ⟨grown, ?_, by simpa using grownCovered⟩
    rw [List.foldlM_cons, instantiates]
    exact rest

end NumericFacts

/-! ## The set of all axioms -/

theorem foldl_addAxiom_mem {axioms added : List InstantiatedNumericAxiom}
    {numericAxiom : InstantiatedNumericAxiom} (isAxiom : numericAxiom ∈ added.foldl addAxiom axioms) :
    numericAxiom ∈ axioms ∨ numericAxiom ∈ added := by
  induction added generalizing axioms with
  | nil => exact .inl isAxiom
  | cons first added inductionHypothesis =>
    obtain isOld | isLater := inductionHypothesis isAxiom
    · obtain isOld | rfl := mem_addAxiom isOld
      · exact .inl isOld
      · exact .inr (List.mem_cons_self ..)
    · exact .inr (List.mem_cons_of_mem _ isLater)

theorem subset_foldl_addAxiom (axioms added : List InstantiatedNumericAxiom) :
    axioms ⊆ added.foldl addAxiom axioms := by
  induction added generalizing axioms with
  | nil => exact List.Subset.refl _
  | cons first added inductionHypothesis =>
    exact List.Subset.trans (subset_addAxiom axioms first) (inductionHypothesis _)

theorem exists_effect_foldl_addAxiom {axioms added : List InstantiatedNumericAxiom}
    {numericAxiom : InstantiatedNumericAxiom} (isAdded : numericAxiom ∈ added) :
    ∃ found ∈ added.foldl addAxiom axioms, found.effect = numericAxiom.effect := by
  induction added generalizing axioms with
  | nil => cases isAdded
  | cons first added inductionHypothesis =>
    obtain rfl | isLater := List.mem_cons.mp isAdded
    · obtain ⟨found, isFound, isEffect⟩ := exists_effect_addAxiom axioms numericAxiom
      exact ⟨found, subset_foldl_addAxiom _ added isFound, isEffect⟩
    · exact inductionHypothesis isLater

theorem nodup_foldl_addAxiom {axioms : List InstantiatedNumericAxiom}
    (nodup : (axioms.map InstantiatedNumericAxiom.effect).Nodup) (added : List InstantiatedNumericAxiom) :
    ((added.foldl addAxiom axioms).map InstantiatedNumericAxiom.effect).Nodup := by
  induction added generalizing axioms with
  | nil => exact nodup
  | cons first added inductionHypothesis => exact inductionHypothesis (nodup_addAxiom nodup first)

namespace NumericInstances

variable {facts : NumericFacts} {expressions : List FunctionalExpression} {model : List ModelAtom}
  {instances : NumericInstances}

theorem Covered.settled (covered : instances.Covered facts expressions model model) {pne : Pne}
    (covers : instances.Covers facts model pne) : facts.Settled instances.numericAxioms pne := by
  obtain ⟨symbol, args⟩ := pne
  cases symbol with
  | function name => exact covers
  | constant _ | inverse _ | operation _ _ =>
    obtain ⟨numericAxiom, isConstant, isEffect⟩ | reached := covers
    · obtain ⟨found, isFound, sameEffect⟩ := exists_effect_foldl_addAxiom isConstant
      exact ⟨found, isFound, sameEffect.trans isEffect⟩
    · obtain ⟨numericAxiom, isInstance, isEffect⟩ := covered.reached _ _ reached
      exact ⟨numericAxiom, subset_foldl_addAxiom _ _ isInstance, isEffect⟩

theorem Covered.groundAxioms (covered : instances.Covered facts expressions model model)
    (prints : facts.PrintsModel expressions model) : facts.GroundAxioms instances.numericAxioms := by
  have each : ∀ numericAxiom ∈ instances.numericAxioms,
      numericAxiom = facts.groundAxiom numericAxiom.effect ∧ facts.Printable numericAxiom.effect ∧
        numericAxiom.effect.symbol.IsDerived ∧
        ∀ operand ∈ numericAxiom.effect.operands,
          facts.Settled instances.numericAxioms (facts.settle operand) := by
    intro numericAxiom isAxiom
    obtain isInstance | isConstant := foldl_addAxiom_mem isAxiom
    · obtain ⟨name, args, reached, derived, rfl, operands⟩ := covered.instantiated numericAxiom isInstance
      rw [NumericFacts.groundAxiom_effect]
      exact ⟨rfl, (prints.numericAxiom name args reached).1, derived,
        fun operand isOperand => covered.settled (operands operand isOperand)⟩
    · obtain ⟨value, printed, rfl⟩ := covered.sound.constants numericAxiom isConstant
      exact ⟨rfl, NumericFacts.printable_constant printed, trivial, by simp [constantAxiom, Pne.operands]⟩
  exact {
    nodup := nodup_foldl_addAxiom covered.nodup _
    computes := fun numericAxiom isAxiom => (each numericAxiom isAxiom).1
    printable := fun numericAxiom isAxiom => (each numericAxiom isAxiom).2.1
    derived := fun numericAxiom isAxiom => (each numericAxiom isAxiom).2.2.1
    closed := fun numericAxiom isAxiom => (each numericAxiom isAxiom).2.2.2 }

end NumericInstances

namespace NumericFacts

variable {facts : NumericFacts} {expressions : List FunctionalExpression} {model : List ModelAtom}
  {admin : FunctionAdministrator}

theorem instantiate_eq (sound : admin.Sound) (supports : facts.Supports expressions admin model)
    (prints : facts.PrintsModel expressions model) :
    ∃ instances, facts.instantiate (expressions.map fun expression => (expression, expression.derived))
        admin model = some instances ∧
      instances.Covered facts expressions model model := by
  rw [instantiate, sound.buildRules]
  have start : NumericInstances.Covered ⟨admin, [], [], []⟩ facts expressions model [] :=
    { sound := ⟨sound, by simp⟩
      nodup := by simp
      instantiated := by simp
      reached := by simp
      occurrences := by simp
      occurs := by simp }
  exact foldlM_instantiateAtom supports prints (List.Subset.refl model) (List.Subset.refl _) start

end NumericFacts

end CutPlan.Translate
