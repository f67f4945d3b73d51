import CutPlan.Translate.DerivedValues
import Mathlib.Data.List.Nodup

/-! # Instantiation of numeric axioms

The axioms of derived functions are instantiated for the atoms that the exploration has reached.
Functions that no reachable action changes are replaced by constants.
-/

namespace CutPlan.Translate

open CutPlan.Sas

structure InstantiatedNumericAxiom where
  op : Option CalOperator
  parts : List NumericPart
  effect : Pne
  deriving DecidableEq, Repr

/-- What instantiation knows of the functions: which ones are fluent, and the initial values. -/
structure NumericFacts where
  fluentFunctions : String → List String → Bool
  initFunctionVals : String → List String → Option ℚ

/-- An atom of the exploration: an occurrence of an expression in an action or an axiom, with the objects
for the variables, or a numeric axiom with its arguments. -/
inductive ModelAtom where
  | occurrence (number : ℕ) (mapping : String → String)
  | numericAxiom (name : Symbol) (args : List String)

structure Occurrence where
  expression : FunctionalExpression
  mapping : String → String
  pne : Pne

structure NumericInstances where
  admin : FunctionAdministrator
  instantiated : List InstantiatedNumericAxiom
  newConstants : List InstantiatedNumericAxiom
  occurrences : List Occurrence

/-- Sets of axioms have one axiom for a name, which is the printed effect. -/
def addAxiom (axioms : List InstantiatedNumericAxiom) (numericAxiom : InstantiatedNumericAxiom) :
    List InstantiatedNumericAxiom :=
  if axioms.any (·.effect = numericAxiom.effect) then axioms else axioms ++ [numericAxiom]

/-- The mapping that assigns to each parameter the last argument given for it. -/
def variableMapping (parameters args : List String) : String → String :=
  (parameters.zip args).foldl (fun mapping pair => Function.update mapping pair.1 pair.2) id

namespace NumericAxiom

/-- The rules of the exploration extend the parameters of a unary minus in place. -/
def buildRules (numericAxiom : NumericAxiom) : NumericAxiom :=
  match numericAxiom.op, numericAxiom.parts with
  | some .diff, [.pne part] => { numericAxiom with parameters := numericAxiom.parameters ++ part.args }
  | _, _ => numericAxiom

end NumericAxiom

def FunctionAdministrator.buildRules (admin : FunctionAdministrator) : FunctionAdministrator :=
  ⟨admin.functions.map fun entry => (entry.1, entry.2.buildRules)⟩

namespace NumericFacts

variable (facts : NumericFacts)

def instantiatePne (mapping : String → String) (pne : Pne) (instances : NumericInstances) :
    Option (Pne × NumericInstances) :=
  let args := pne.args.map mapping
  match pne.symbol with
  | .function name =>
    if facts.fluentFunctions name args then some (.mk pne.symbol args, instances)
    else do
      let constant ← facts.initFunctionVals name args
      let (predicate, admin) ←
        (FunctionalExpression.numericConstant constant).getDerivedFunction instances.admin
      let entry ← admin.functions.find? (·.1 = .constant constant)
      let newAxiom : InstantiatedNumericAxiom :=
        { op := entry.2.op, parts := entry.2.parts, effect := .mk entry.2.name [] }
      return (predicate,
        { instances with admin, newConstants := addAxiom instances.newConstants newAxiom })
  | _ => some (.mk pne.symbol args, instances)

def instantiateParts (mapping : String → String) :
    List NumericPart → NumericInstances → Option (List NumericPart × NumericInstances)
  | [], instances => some ([], instances)
  | .numericConstant value :: parts, instances => do
    let (rest, instances) ← instantiateParts mapping parts instances
    return (.numericConstant value :: rest, instances)
  | .pne pne :: parts, instances => do
    let (first, instances) ← facts.instantiatePne mapping pne instances
    let (rest, instances) ← instantiateParts mapping parts instances
    return (.pne first :: rest, instances)

def instantiateAxiom (args : List String) (numericAxiom : NumericAxiom) (instances : NumericInstances) :
    Option (InstantiatedNumericAxiom × NumericInstances) := do
  let mapping := variableMapping numericAxiom.parameters args
  let (parts, instances) ← facts.instantiateParts mapping numericAxiom.parts instances
  return ({ op := numericAxiom.op
            parts
            effect := .mk numericAxiom.name (numericAxiom.parameters.map mapping) }, instances)

def instantiateAtom (expressions : List (FunctionalExpression × Pne)) (instances : NumericInstances) :
    ModelAtom → Option NumericInstances
  | .occurrence number mapping => do
    let (expression, pne) ← expressions[number]?
    let (ground, instances) ← facts.instantiatePne mapping pne instances
    return { instances with
      occurrences := instances.occurrences ++ [⟨expression, mapping, ground⟩] }
  | .numericAxiom name args => do
    let entry ← instances.admin.functions.find? (·.2.name = name)
    let (numericAxiom, instances) ← facts.instantiateAxiom args entry.2 instances
    return { instances with instantiated := addAxiom instances.instantiated numericAxiom }

def instantiate (expressions : List (FunctionalExpression × Pne)) (admin : FunctionAdministrator)
    (model : List ModelAtom) : Option NumericInstances :=
  model.foldlM (facts.instantiateAtom expressions) ⟨admin.buildRules, [], [], []⟩

end NumericFacts

def NumericInstances.numericAxioms (instances : NumericInstances) : List InstantiatedNumericAxiom :=
  instances.newConstants.foldl addAxiom instances.instantiated

/-! ## What instantiation yields -/

namespace NumericFacts

variable (facts : NumericFacts)

/-- The value of a function that no reachable action changes. -/
def static (name : String) (args : List String) : Option ℚ :=
  if facts.fluentFunctions name args then none else facts.initFunctionVals name args

def settle (pne : Pne) : Pne :=
  match pne.symbol with
  | .function name =>
    match facts.static name pne.args with
    | some value => .mk (.constant value) []
    | none => pne
  | _ => pne

/-- The axiom that computes an instance of a derived function. -/
def groundAxiom (pne : Pne) : InstantiatedNumericAxiom :=
  match pne.symbol with
  | .constant text => { op := none, parts := [.numericConstant text], effect := pne }
  | _ =>
    { op := pne.operator
      parts := pne.operands.map fun operand => .pne (facts.settle operand)
      effect := pne }

/-- The exploration knows a value of the function, or has reached its axiom. -/
def Reached (model : List ModelAtom) (pne : Pne) : Prop :=
  match pne.symbol with
  | .function name =>
    facts.fluentFunctions name pne.args = true ∨ (facts.initFunctionVals name pne.args).isSome = true
  | _ => .numericAxiom pne.symbol pne.args ∈ model

/-- The rules of the exploration have reached the operands of an axiom before the axiom, and the function
of an expression before its occurrence. -/
structure Supports (expressions : List FunctionalExpression) (admin : FunctionAdministrator)
    (model : List ModelAtom) : Prop where
  numericAxiom : ∀ name args, .numericAxiom name args ∈ model →
    (∃ entry ∈ admin.functions, entry.2.name = name ∧ entry.2.parameters.length = args.length) ∧
      ∀ operand ∈ (Pne.mk name args).operands, facts.Reached model operand
  occurrence : ∀ number mapping, .occurrence number mapping ∈ model →
    ∃ expression, expressions[number]? = some expression ∧
      facts.Reached model (expression.derived.ground mapping)

/-- The static functions among the operands have values of at most twelve significant digits. -/
def PrintsStatic (pne : Pne) : Prop :=
  ∀ name value, pne.symbol = .function name → facts.static name pne.args = some value → str value = value

end NumericFacts

def constantAxiom (value : ℚ) : InstantiatedNumericAxiom :=
  { op := none, parts := [.numericConstant value], effect := .mk (.constant value) [] }

namespace NumericInstances

structure Sound (instances : NumericInstances) : Prop where
  admin : instances.admin.Sound
  constants : ∀ numericAxiom ∈ instances.newConstants,
    ∃ value, str value = value ∧ numericAxiom = constantAxiom value

structure Grows (instances grown : NumericInstances) : Prop where
  functions : instances.admin.functions ⊆ grown.admin.functions
  constants : instances.newConstants ⊆ grown.newConstants
  instantiated : grown.instantiated = instances.instantiated
  occurrences : grown.occurrences = instances.occurrences

theorem Grows.refl (instances : NumericInstances) : instances.Grows instances :=
  ⟨List.Subset.refl _, List.Subset.refl _, rfl, rfl⟩

theorem Grows.trans {first second third : NumericInstances} (grows : first.Grows second)
    (more : second.Grows third) : first.Grows third where
  functions := List.Subset.trans grows.functions more.functions
  constants := List.Subset.trans grows.constants more.constants
  instantiated := more.instantiated.trans grows.instantiated
  occurrences := more.occurrences.trans grows.occurrences

/-- A function has a variable, or there is or will be an axiom for it. -/
def Covers (instances : NumericInstances) (facts : NumericFacts) (model : List ModelAtom) (pne : Pne) :
    Prop :=
  match pne.symbol with
  | .function name => facts.fluentFunctions name pne.args = true
  | _ => (∃ numericAxiom ∈ instances.newConstants, numericAxiom.effect = pne) ∨
      .numericAxiom pne.symbol pne.args ∈ model

theorem Covers.mono {instances grown : NumericInstances} {facts : NumericFacts} {model : List ModelAtom}
    {pne : Pne} (covers : instances.Covers facts model pne)
    (subset : instances.newConstants ⊆ grown.newConstants) : grown.Covers facts model pne := by
  obtain ⟨symbol, args⟩ := pne
  cases symbol with
  | function name => exact covers
  | constant _ | inverse _ | operation _ _ =>
    obtain ⟨numericAxiom, isConstant, isEffect⟩ | reached := covers
    · exact .inl ⟨numericAxiom, subset isConstant, isEffect⟩
    · exact .inr reached

end NumericInstances

theorem mem_addAxiom {axioms : List InstantiatedNumericAxiom} {added numericAxiom : InstantiatedNumericAxiom}
    (isAxiom : numericAxiom ∈ addAxiom axioms added) : numericAxiom ∈ axioms ∨ numericAxiom = added := by
  unfold addAxiom at isAxiom
  split at isAxiom
  · exact .inl isAxiom
  · simpa using isAxiom

theorem subset_addAxiom (axioms : List InstantiatedNumericAxiom) (added : InstantiatedNumericAxiom) :
    axioms ⊆ addAxiom axioms added := by
  unfold addAxiom
  split
  · exact List.Subset.refl _
  · exact List.subset_append_left _ _

theorem exists_effect_addAxiom (axioms : List InstantiatedNumericAxiom) (added : InstantiatedNumericAxiom) :
    ∃ numericAxiom ∈ addAxiom axioms added, numericAxiom.effect = added.effect := by
  unfold addAxiom
  split
  · rename_i present
    simpa using present
  · exact ⟨added, by simp, rfl⟩

theorem nodup_addAxiom {axioms : List InstantiatedNumericAxiom}
    (nodup : (axioms.map InstantiatedNumericAxiom.effect).Nodup) (added : InstantiatedNumericAxiom) :
    ((addAxiom axioms added).map InstantiatedNumericAxiom.effect).Nodup := by
  unfold addAxiom
  split
  · exact nodup
  · rename_i absent
    simp only [List.any_eq_true, decide_eq_true_eq, not_exists, not_and] at absent
    rw [List.map_append, List.nodup_append]
    refine ⟨nodup, by simp, ?_⟩
    simp only [List.mem_map, List.map_cons, List.map_nil, List.mem_singleton]
    rintro _ ⟨present, isPresent, rfl⟩ _ rfl
    exact absent present isPresent

namespace NumericFacts

variable {facts : NumericFacts} {model : List ModelAtom} {instances : NumericInstances}

theorem instantiatePne_eq (sound : instances.Sound) {mapping : String → String} {pne : Pne}
    (reached : facts.Reached model (pne.ground mapping)) (prints : facts.PrintsStatic (pne.ground mapping)) :
    ∃ grown, facts.instantiatePne mapping pne instances =
        some (facts.settle (pne.ground mapping), grown) ∧
      grown.Sound ∧ instances.Grows grown ∧ grown.Covers facts model (facts.settle (pne.ground mapping)) := by
  obtain ⟨symbol, args⟩ := pne
  cases symbol with
  | function name =>
    by_cases fluent : facts.fluentFunctions name (args.map mapping) = true
    · refine ⟨instances, ?_, sound, .refl _, ?_⟩
      · simp [instantiatePne, settle, static, fluent]
        rfl
      · simp [NumericInstances.Covers, settle, static, fluent]
    · have known : (facts.initFunctionVals name (args.map mapping)).isSome = true := by
        simpa [Reached, fluent] using reached
      obtain ⟨constant, isInitial⟩ := Option.isSome_iff_exists.mp known
      have isStatic : facts.static name (args.map mapping) = some constant := by
        simp [static, fluent, isInitial]
      have printed : str constant = constant := prints name constant rfl isStatic
      obtain ⟨admin, registers, adminSound, grows, entry, isEntry, isKey⟩ :=
        sound.admin.register (.constant constant) []
          (fun symbol => ⟨symbol, [], none, [.numericConstant constant]⟩) printed
          (by simp [FunctionKey.symbol, FunctionKey.numericAxiom, printed])
      have found : ∃ entry, admin.functions.find? (·.1 = .constant constant) = some entry := by
        rw [← Option.isSome_iff_exists, List.find?_isSome]
        exact ⟨entry, isEntry, by simp [isKey]⟩
      obtain ⟨entry, isFound⟩ := found
      have hasKey : entry.1 = .constant constant := by simpa using List.find?_some isFound
      have isAxiom : entry.2 = ⟨.constant constant, [], none, [.numericConstant constant]⟩ := by
        rw [adminSound.numericAxiom entry (List.mem_of_find?_eq_some isFound), hasKey]
        rfl
      have settled : facts.settle (.mk (.function name) (args.map mapping)) = .mk (.constant constant) [] := by
        simp [settle, isStatic]
      refine ⟨{ instances with
          admin := admin
          newConstants := addAxiom instances.newConstants (constantAxiom constant) }, ?_, ?_, ?_, ?_⟩
      · simp only [instantiatePne, Pne.symbol_mk, Pne.args_mk, fluent, isInitial, Bool.false_eq_true,
          if_false, Option.bind_eq_bind, Option.bind_some, FunctionalExpression.getDerivedFunction, registers,
          isFound, isAxiom, FunctionKey.symbol, printed, Option.pure_def]
        rw [show Pne.ground mapping (.mk (.function name) args) = .mk (.function name) (args.map mapping)
          from rfl, settled]
        rfl
      · refine ⟨adminSound, ?_⟩
        intro numericAxiom isConstant
        obtain isOld | rfl := mem_addAxiom isConstant
        · exact sound.constants numericAxiom isOld
        · exact ⟨constant, printed, rfl⟩
      · exact ⟨grows, subset_addAxiom _ _, rfl, rfl⟩
      · rw [show Pne.ground mapping (.mk (.function name) args) = .mk (.function name) (args.map mapping)
          from rfl, settled]
        exact .inl (exists_effect_addAxiom _ _)
  | constant text => exact ⟨instances, rfl, sound, .refl _, .inr reached⟩
  | inverse part => exact ⟨instances, rfl, sound, .refl _, .inr reached⟩
  | operation op parts => exact ⟨instances, rfl, sound, .refl _, .inr reached⟩

theorem instantiateParts_eq {mapping : String → String} {parts : List Pne} (sound : instances.Sound)
    (reached : ∀ part ∈ parts, facts.Reached model (part.ground mapping))
    (prints : ∀ part ∈ parts, facts.PrintsStatic (part.ground mapping)) :
    ∃ grown, facts.instantiateParts mapping (parts.map .pne) instances =
        some (parts.map fun part => .pne (facts.settle (part.ground mapping)), grown) ∧
      grown.Sound ∧ instances.Grows grown ∧
      ∀ part ∈ parts, grown.Covers facts model (facts.settle (part.ground mapping)) := by
  induction parts generalizing instances with
  | nil => exact ⟨instances, rfl, sound, .refl _, by simp⟩
  | cons part parts inductionHypothesis =>
    rw [List.forall_mem_cons] at reached prints
    obtain ⟨first, instantiates, firstSound, firstGrows, covered⟩ :=
      instantiatePne_eq sound reached.1 prints.1
    obtain ⟨grown, instantiatesRest, grownSound, grows, restCovered⟩ :=
      inductionHypothesis firstSound reached.2 prints.2
    refine ⟨grown, ?_, grownSound, firstGrows.trans grows, ?_⟩
    · simp [instantiateParts, instantiates, instantiatesRest]
    · rw [List.forall_mem_cons]
      exact ⟨covered.mono grows.constants, restCovered⟩

end NumericFacts

/-! ## Parameters -/

theorem defaultVariables_nodup (count : ℕ) : (defaultVariables count).Nodup := by
  apply List.Nodup.map _ List.nodup_range
  intro first second same
  have printed : Nat.repr first = Nat.repr second := by simpa using same
  have digits : Nat.toDigits 10 first = Nat.toDigits 10 second := by
    rw [← Nat.toList_repr, ← Nat.toList_repr, printed]
  rw [← Nat.ofDigitChars_ten_toDigits (n := first), digits, Nat.ofDigitChars_ten_toDigits]

@[simp] theorem defaultVariables_length (count : ℕ) : (defaultVariables count).length = count := by
  simp [defaultVariables]

theorem foldl_update_of_notMem {parameters args : List String} {parameter : String}
    (absent : parameter ∉ parameters) (mapping : String → String) :
    (parameters.zip args).foldl (fun mapping pair => Function.update mapping pair.1 pair.2) mapping
      parameter = mapping parameter := by
  induction parameters generalizing args mapping with
  | nil => rfl
  | cons first parameters inductionHypothesis =>
    cases args with
    | nil => rfl
    | cons arg args =>
      rw [List.mem_cons, not_or] at absent
      simp [inductionHypothesis absent.2, absent.1]

theorem map_foldl_update {parameters args : List String} (nodup : parameters.Nodup)
    (sameLength : parameters.length = args.length) (mapping : String → String) :
    parameters.map ((parameters.zip args).foldl
      (fun mapping pair => Function.update mapping pair.1 pair.2) mapping) = args := by
  induction parameters generalizing args mapping with
  | nil => simpa [eq_comm] using sameLength
  | cons first parameters inductionHypothesis =>
    cases args with
    | nil => simp at sameLength
    | cons arg args =>
      rw [List.nodup_cons] at nodup
      simp only [List.zip_cons_cons, List.foldl_cons, List.map_cons]
      rw [foldl_update_of_notMem nodup.1,
        inductionHypothesis nodup.2 (by simpa using sameLength)]
      simp

theorem map_variableMapping {parameters args : List String} (nodup : parameters.Nodup)
    (sameLength : parameters.length = args.length) : parameters.map (variableMapping parameters args) = args :=
  map_foldl_update nodup sameLength id

theorem FunctionKey.buildRules_numericAxiom {key : FunctionKey} (exact : key.Exact) :
    key.numericAxiom.buildRules = key.numericAxiom := by
  cases key with
  | constant value => rfl
  | inverse symbol => rfl
  | operation op parts =>
    match parts, exact with
    | first :: second :: parts, _ => cases op <;> simp [numericAxiom, NumericAxiom.buildRules, Pne.regroup]

theorem FunctionAdministrator.Sound.buildRules {admin : FunctionAdministrator} (sound : admin.Sound) :
    admin.buildRules = admin := by
  have unchanged : ∀ entry ∈ admin.functions, (entry.1, entry.2.buildRules) = entry := by
    intro entry isEntry
    rw [sound.numericAxiom entry isEntry,
      FunctionKey.buildRules_numericAxiom (sound.exact entry isEntry), ← sound.numericAxiom entry isEntry]
  unfold FunctionAdministrator.buildRules
  rw [List.map_congr_left unchanged, List.map_id']

/-! ## Axioms and atoms -/

namespace NumericFacts

variable {facts : NumericFacts} {model : List ModelAtom} {instances : NumericInstances}

theorem instantiateAxiom_eq {key : FunctionKey} {args : List String} (sound : instances.Sound)
    (exact : key.Exact) (arity : key.numericAxiom.parameters.length = args.length)
    (reached : ∀ operand ∈ (Pne.mk key.symbol args).operands, facts.Reached model operand)
    (prints : ∀ operand ∈ (Pne.mk key.symbol args).operands, facts.PrintsStatic operand) :
    ∃ grown, facts.instantiateAxiom args key.numericAxiom instances =
        some (facts.groundAxiom (.mk key.symbol args), grown) ∧
      grown.Sound ∧ instances.Grows grown ∧
      ∀ operand ∈ (Pne.mk key.symbol args).operands,
        grown.Covers facts model (facts.settle operand) := by
  cases key with
  | constant value =>
    obtain rfl : args = [] := by simpa [FunctionKey.numericAxiom, eq_comm] using arity
    have printed : str value = value := exact
    refine ⟨instances, ?_, sound, .refl _, by simp [Pne.operands, FunctionKey.symbol]⟩
    simp [instantiateAxiom, FunctionKey.numericAxiom, instantiateParts, groundAxiom, FunctionKey.symbol,
      printed]
  | inverse symbol =>
    obtain rfl : args = [] := by simpa [FunctionKey.numericAxiom, eq_comm] using arity
    have reachedPart : ∀ part ∈ [Pne.mk symbol []],
        facts.Reached model (part.ground (variableMapping [] [])) := by
      simpa [Pne.operands, FunctionKey.symbol, Pne.ground] using reached
    have printsPart : ∀ part ∈ [Pne.mk symbol []],
        facts.PrintsStatic (part.ground (variableMapping [] [])) := by
      simpa [Pne.operands, FunctionKey.symbol, Pne.ground] using prints
    obtain ⟨grown, instantiates, grownSound, grows, covered⟩ :=
      instantiateParts_eq sound reachedPart printsPart
    refine ⟨grown, ?_, grownSound, grows, ?_⟩
    · simp only [instantiateAxiom, FunctionKey.numericAxiom, List.map_cons, List.map_nil] at instantiates ⊢
      rw [instantiates]
      rfl
    · simpa [Pne.operands, FunctionKey.symbol, Pne.ground] using covered
  | operation op parts =>
    have sameLength : (defaultVariables (parts.flatMap Pne.args).length).length = args.length := arity
    have mapped := map_variableMapping (defaultVariables_nodup _) sameLength
    have operands : (Pne.regroup parts (defaultVariables (parts.flatMap Pne.args).length)).map
        (Pne.ground (variableMapping (defaultVariables (parts.flatMap Pne.args).length) args)) =
          (Pne.mk (.operation op parts) args).operands := by
      rw [Pne.map_ground_regroup, mapped]
      rfl
    rw [FunctionKey.symbol] at reached prints ⊢
    rw [← operands, List.forall_mem_map] at reached prints
    obtain ⟨grown, instantiates, grownSound, grows, covered⟩ := instantiateParts_eq sound reached prints
    refine ⟨grown, ?_, grownSound, grows, ?_⟩
    · simp only [instantiateAxiom, FunctionKey.numericAxiom, instantiates, mapped, groundAxiom, Pne.symbol_mk,
        Option.bind_eq_bind, Option.bind_some, ← operands, List.map_map]
      rfl
    · rw [← operands, List.forall_mem_map]
      exact covered

end NumericFacts

end CutPlan.Translate
