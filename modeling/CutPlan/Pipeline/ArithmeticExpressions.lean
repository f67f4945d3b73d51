import CutPlan.Translate.NumericVariableValues

/-! # Arithmetic expressions

From the expressions of a task to the numeric variables that the preprocessor reads for them.
-/

namespace CutPlan.Pipeline

open CutPlan.Lib CutPlan.Preprocess CutPlan.Sas CutPlan.Translate

/-- The expressions of a task with the initial values of the functions, and what the exploration has
found: the fluent functions, sorted by their names, and the atoms that matter for numeric axioms. -/
structure ArithmeticTask where
  expressions : List FunctionalExpression
  initFunctionVals : String → List String → Option ℚ
  fluents : List Pne
  model : List ModelAtom

namespace ArithmeticTask

variable (task : ArithmeticTask)

def facts : NumericFacts where
  fluentFunctions := fun name args => .mk (.function name) args ∈ task.fluents
  initFunctionVals := task.initFunctionVals

structure Output where
  occurrences : List Occurrence
  dictionary : Pne → Option ℕ
  task : ReadNumericTask

/-- The visited expressions are those of the task with their operands sorted. -/
def run (visited : List FunctionalExpression) (order : IterationOrder) : Option Output := do
  let (functions, admin) ← FunctionalExpression.getDerivedFunctions visited ⟨[]⟩
  let instances ← task.facts.instantiate (visited.zip functions) admin task.model
  let translation ← translateNumericTask task.facts order task.fluents instances.numericAxioms
  let (read, _) ← readNumericTask.run translation.task.output
  return { occurrences := instances.occurrences, dictionary := translation.dictionary, task := read }

/-- The numeric state has the values of the fluent functions. -/
def Represents (dictionary : Pne → Option ℕ) (functions : String → List String → Option ℚ)
    (state : ℕ → ℚ) : Prop :=
  ∀ name args var, .mk (.function name) args ∈ task.fluents →
    dictionary (.mk (.function name) args) = some var → functions name args = some (state var)

/-- Every occurrence of an expression has a variable that has the expression's value in each state. -/
def KeepsValues (visited : List FunctionalExpression) (order : IterationOrder) : Prop :=
  ∃ output, task.run visited order = some output ∧
    ∀ number mapping expression, .occurrence number mapping ∈ task.model →
      task.expressions[number]? = some expression →
      ∃ occurrence ∈ output.occurrences, visited[number]? = some occurrence.expression ∧
        occurrence.mapping = mapping ∧ ∃ var, output.dictionary occurrence.pne = some var ∧
          ∀ functions state value, task.facts.Agrees functions →
            task.Represents output.dictionary functions state →
            expression.value functions mapping = some value → output.task.evaluate state var = value

/-- The atoms of the model follow from the rules of the exploration. -/
def Explored (visited : List FunctionalExpression) : Prop :=
  ∀ functions admin, FunctionalExpression.getDerivedFunctions visited ⟨[]⟩ = some (functions, admin) →
    task.facts.Supports visited admin task.model

/-- Numbers and constant values have at most twelve significant digits, and the operations that are not
constant have two operands. -/
structure KeepsDigitsAndOperands (visited : List FunctionalExpression) : Prop where
  exact : FunctionalExpression.ExactAll visited
  prints : task.facts.PrintsModel visited task.model

variable {task}

theorem reordered_getElem? {expressions visited : List FunctionalExpression}
    (reordered : FunctionalExpression.ReorderedAll expressions visited) {number : ℕ}
    {expression : FunctionalExpression} (isExpression : expressions[number]? = some expression) :
    ∃ sorted, visited[number]? = some sorted ∧ expression.Reordered sorted := by
  induction expressions generalizing visited number with
  | nil => cases isExpression
  | cons head tail inductionHypothesis =>
    cases reordered with
    | cons first rest =>
      cases number with
      | zero =>
        cases isExpression
        exact ⟨_, rfl, first⟩
      | succ number => exact inductionHypothesis rest isExpression

theorem zip_derivedAll (visited : List FunctionalExpression) :
    visited.zip (FunctionalExpression.derivedAll visited) =
      visited.map fun expression => (expression, expression.derived) := by
  induction visited with
  | nil => rfl
  | cons expression visited inductionHypothesis =>
    simp [FunctionalExpression.derivedAll, inductionHypothesis]

/-- The written task is read back. -/
theorem reads_translation {facts : NumericFacts} {folded : List InstantiatedNumericAxiom}
    {constantAxioms : List Pne} {axiomMap : AxiomMap} {columns : List Pne}
    {rules : List AxiomNumericComputation} (order : IterationOrder)
    (computes : List.Forall₂ (NumericFacts.Computes (numericDictionary columns axiomMap))
      (NumericFacts.writtenAxioms folded constantAxioms axiomMap) rules) :
    readNumericTask.run (SasNumericTask.output
      { types := columns.map (numericType folded constantAxioms)
        axiomLayers := columns.map (numericLayer (layeredEffects order folded constantAxioms axiomMap))
        numericValues := columns.map (initialValue facts folded constantAxioms)
        numericAxioms := ((keptAxioms folded axiomMap).filter (·.effect ∉ constantAxioms)).map
          (translateNumericAxiom (numericDictionary columns axiomMap)) }) =
      some (
        { numericVariables := NumericFacts.readVariables order folded constantAxioms axiomMap columns
          numericValues := (columns.map (initialValue facts folded constantAxioms)).map str
          axiomsNumeric := sortByLayer
            (NumericFacts.readVariables order folded constantAxioms axiomMap columns) rules }, []) :=
  (reads_numericTask _ rules (NumericFacts.map_translate_eq computes) (by simp) (by simp)).run_eq

/-! ## Start values -/

section StartValues

variable {folded : List InstantiatedNumericAxiom} {constantAxioms : List Pne} {axiomMap : AxiomMap}
  {order : IterationOrder} {rules : List AxiomNumericComputation}

/-- The numeric part of the task that is read. -/
def readTask (task : ArithmeticTask) (order : IterationOrder) (folded : List InstantiatedNumericAxiom)
    (constantAxioms : List Pne) (axiomMap : AxiomMap) (rules : List AxiomNumericComputation) :
    ReadNumericTask :=
  let columns := numericColumns folded axiomMap task.fluents
  { numericVariables := NumericFacts.readVariables order folded constantAxioms axiomMap columns
    numericValues := (columns.map (initialValue task.facts folded constantAxioms)).map str
    axiomsNumeric := sortByLayer
      (NumericFacts.readVariables order folded constantAxioms axiomMap columns) rules }

theorem startValues_fluent (axioms : task.facts.FoldedAxioms folded constantAxioms)
    (merges : task.facts.Merges folded constantAxioms (folded.map InstantiatedNumericAxiom.effect) axiomMap)
    (fluentsNodup : task.fluents.Nodup) {functions : String → List String → Option ℚ} {state : ℕ → ℚ}
    (represents : task.Represents (numericDictionary (numericColumns folded axiomMap task.fluents) axiomMap)
      functions state) {var : ℕ} {pne : Pne} {name : String}
    (hasColumn : (numericColumns folded axiomMap task.fluents)[var]? = some pne)
    (isFunction : pne.symbol = .function name)
    (notEffect : pne ∉ folded.map InstantiatedNumericAxiom.effect) :
    functions name pne.args =
      some ((task.readTask order folded constantAxioms axiomMap rules).startValues state var) := by
  have notConstant : pne ∉ constantAxioms := by
    intro isConstant
    obtain ⟨value, _, _, isFolded⟩ := axioms.constant pne isConstant
    exact notEffect (List.mem_map.mpr ⟨_, isFolded, rfl⟩)
  have isFluent : pne ∈ task.fluents := by
    have isColumn := List.mem_of_getElem? hasColumn
    rw [numericColumns, List.mem_append] at isColumn
    obtain isKept | isFluent := isColumn
    · obtain ⟨numericAxiom, kept, rfl⟩ := List.mem_map.mp isKept
      exact absurd (List.mem_map_of_mem (NumericFacts.mem_keptAxioms.mp kept).1) notEffect
    · exact (List.mem_filter.mp isFluent).1
  have same : axiomMap.representative pne = pne := by
    obtain ⟨_, same⟩ | merged := merges.representative_cases pne
    · exact same
    · exact absurd merged.isProcessed notEffect
  have hasVariable : numericDictionary (numericColumns folded axiomMap task.fluents) axiomMap pne =
      some var := by
    obtain ⟨index, found⟩ := exists_idxOf? (List.mem_of_getElem? hasColumn)
    rw [numericDictionary, same, found]
    have sameColumn := (getElem?_of_idxOf? found).trans hasColumn.symm
    have nodup : (numericColumns folded axiomMap task.fluents).Nodup := axioms.columns_nodup fluentsNodup
    have inside := (List.getElem?_eq_some_iff.mp (getElem?_of_idxOf? found)).1
    exact congrArg some ((List.getElem?_inj inside nodup).mp sameColumn)
  have isPne : Pne.mk (.function name) pne.args = pne := by
    rw [← isFunction, Pne.mk_symbol_args]
  have known := represents name pne.args var (by rwa [isPne]) (by rwa [isPne])
  rw [known]
  -- The variable is neither constant nor derived, so that it is the state's own.
  have hasType : readType (numericType folded constantAxioms pne) = .unknown := by
    rw [numericType, if_neg notConstant, if_neg notEffect]
    split <;> rfl
  simp [readTask, ReadNumericTask.startValues, NumericFacts.readVariables_getElem?, hasColumn, hasType]

theorem startValues_constant (axioms : task.facts.FoldedAxioms folded constantAxioms) (state : ℕ → ℚ)
    {var : ℕ} {pne : Pne} {value : ℚ}
    (hasColumn : (numericColumns folded axiomMap task.fluents)[var]? = some pne)
    (isConstant : pne ∈ constantAxioms) (hasConstant : task.facts.HasConstant pne value) :
    (task.readTask order folded constantAxioms axiomMap rules).startValues state var = value := by
  obtain ⟨constant, known, printed, isFolded⟩ := axioms.constant pne isConstant
  obtain rfl : constant = value := by
    have same := known.2
    rw [hasConstant.2] at same
    exact (Option.some.inj same).symm
  have found := axioms.find_eq isFolded
  have initial : initialValue task.facts folded constantAxioms pne = constant := by
    rw [show (NumericFacts.foldedAxiom pne constant).effect = pne from rfl] at found
    simp [initialValue, found, NumericFacts.foldedAxiom, isConstant]
  have hasType : numericType folded constantAxioms pne = .constant := if_pos isConstant
  simp [readTask, ReadNumericTask.startValues, NumericFacts.readVariables_getElem?, hasColumn, hasType,
    readType, initial, printed]

end StartValues

/-- A sum of functions without arguments. -/
def sumOf (names : List String) : ArithmeticTask where
  expressions := [.arithmetic .sum (names.map (.primitive · []))]
  initFunctionVals := fun _ _ => some 1
  fluents := names.map fun name => .mk (.function name) []
  model := [
    .numericAxiom (.operation .sum (names.map fun name => .mk (.function name) [])) [],
    .occurrence 0 id]

def dictionaryOrder : IterationOrder where
  constantsFirst := false
  ofDictionary := id
  ofDictionary_perm := .refl
  byName := id
  byName_perm := .refl

theorem sumOf_reordered (names : List String) :
    FunctionalExpression.ReorderedAll (sumOf names).expressions (sumOf names).expressions := by
  have each : ∀ names : List String, FunctionalExpression.ReorderedAll
      (names.map (.primitive · [])) (names.map (.primitive · [])) := by
    intro names
    induction names with
    | nil => exact .nil
    | cons name names inductionHypothesis => exact .cons (.primitive name []) inductionHypothesis
  exact .cons (.arithmetic (each names) (.refl _) (.inl rfl)) .nil

theorem sumOf_visits (names : List String) :
    FunctionalExpression.getDerivedFunctions (sumOf names).expressions ⟨[]⟩ =
      some ([.mk (.operation .sum (names.map fun name => .mk (.function name) [])) []],
        ⟨[(.operation .sum (names.map fun name => .mk (.function name) []),
          FunctionKey.numericAxiom (.operation .sum (names.map fun name => .mk (.function name) [])))]⟩) := by
  have parts : ∀ names : List String, ∀ admin,
      FunctionalExpression.getDerivedFunctions (names.map (.primitive · [])) admin =
        some (names.map fun name => .mk (.function name) [], admin) := by
    intro names admin
    induction names with
    | nil => rfl
    | cons name names inductionHypothesis =>
      simp [FunctionalExpression.getDerivedFunctions, FunctionalExpression.getDerivedFunction,
        inductionHypothesis]
  have noArgs : (names.map fun name => Pne.mk (.function name) []).flatMap Pne.args = [] := by
    simp [List.flatMap_map]
  simp [sumOf, FunctionalExpression.getDerivedFunctions, FunctionalExpression.getDerivedFunction, parts,
    noArgs, FunctionAdministrator.register, FunctionAdministrator.getNewSymbol, FunctionKey.symbol,
    FunctionKey.numericAxiom, Function.comp_def]

theorem sumOf_explored (names : List String) : (sumOf names).Explored (sumOf names).expressions := by
  intro functions admin visits
  rw [sumOf_visits] at visits
  cases visits
  have noArgs : (names.map fun name => Pne.mk (.function name) []).flatMap Pne.args = [] := by
    simp [List.flatMap_map]
  have operands : ∀ parts : List Pne, (∀ part ∈ parts, ∃ name ∈ names, part = .mk (.function name) []) →
      ∀ operand ∈ Pne.regroup parts [], ∃ name ∈ names, operand = .mk (.function name) [] := by
    intro parts areFunctions
    induction parts with
    | nil => simp [Pne.regroup]
    | cons part parts inductionHypothesis =>
      rw [List.forall_mem_cons] at areFunctions
      obtain ⟨name, isName, rfl⟩ := areFunctions.1
      intro operand isOperand
      obtain rfl | isLater := by simpa [Pne.regroup] using isOperand
      · exact ⟨name, isName, rfl⟩
      · exact inductionHypothesis areFunctions.2 operand isLater
  constructor
  · intro name args isAtom
    obtain ⟨rfl, rfl⟩ := by simpa [sumOf] using isAtom
    refine ⟨⟨_, List.mem_singleton_self _, rfl, ?_⟩, ?_⟩
    · simp [FunctionKey.numericAxiom, noArgs, defaultVariables]
    · intro operand isOperand
      obtain ⟨name, isName, rfl⟩ := operands _ (by simp) operand isOperand
      exact .inl (by simp [facts, sumOf, isName])
  · intro number mapping isAtom
    obtain ⟨rfl, rfl⟩ := by simpa [sumOf] using isAtom
    refine ⟨_, rfl, ?_⟩
    simp [NumericFacts.Reached, FunctionalExpression.derived, FunctionalExpression.derivedAll_eq_map, sumOf,
      List.flatMap_map, Function.comp_def]

end ArithmeticTask

end CutPlan.Pipeline
