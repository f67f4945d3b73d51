import CutPlan.Preprocess.AxiomEvaluation
import CutPlan.Translate.NumericVariables

/-! # Reading the numeric part of a task

A task whose axioms have two operands each is read as it was written, up to the digits of the initial
values.
-/

namespace CutPlan.Translate

open CutPlan.Lib CutPlan.Preprocess CutPlan.Sas

/-- The axiom that is read as the given one. -/
def binaryAxiom (rule : AxiomNumericComputation) : WrittenNumericAxiom where
  op := some rule.fop
  parts := [some rule.leftVar, some rule.rightVar]
  effect := some rule.effectVar

/-- The reader only tells constants and derived variables from the others. -/
def readType : NumType → NumType
  | .constant => .constant
  | .derived => .derived
  | .unknown | .instrumentation | .regular => .unknown

theorem reads_variable (type : NumType) (layer : ℤ) :
    Reads readNumericVariable [.word (NumType.code type), .int layer] (readType type, layer) := by
  unfold readNumericVariable
  apply (Reads.word _).bind
  have reads := (Reads.int layer).map fun layer =>
    (if NumType.code type = "C" then NumType.constant
      else if NumType.code type = "D" then .derived else .unknown, layer)
  have same : (if NumType.code type = "C" then NumType.constant
      else if NumType.code type = "D" then .derived else .unknown) = readType type := by
    cases type <;> decide
  simpa only [same] using reads

theorem reads_axiom (rule : AxiomNumericComputation) :
    Reads readAxiomNumericComputation (binaryAxiom rule).output rule := by
  have text : (binaryAxiom rule).output =
      [.int rule.effectVar] ++ ([.word rule.fop.symbol] ++ ([.int rule.leftVar] ++ [.int rule.rightVar])) :=
    rfl
  rw [text]
  unfold readAxiomNumericComputation
  refine (Reads.nat _).bind <| (rule.fop.reads).bind <| (Reads.nat _).bind ?_
  exact (Reads.nat rule.rightVar).map fun rightVar =>
    AxiomNumericComputation.mk rule.effectVar rule.fop rule.leftVar rightVar

theorem reads_numericTask (task : SasNumericTask) (rules : List AxiomNumericComputation)
    (binary : task.numericAxioms = rules.map binaryAxiom)
    (sameLayers : task.axiomLayers.length = task.types.length)
    (sameValues : task.numericValues.length = task.types.length) :
    Reads readNumericTask task.output
      { numericVariables := (task.types.map readType).zip task.axiomLayers
        numericValues := task.numericValues.map str
        axiomsNumeric := sortByLayer ((task.types.map readType).zip task.axiomLayers) rules } := by
  have numericVariables : Reads (Reader.many readNumericVariable task.types.length)
      ((task.types.zip task.axiomLayers).flatMap fun entry =>
        [.word (NumType.code entry.1), .int entry.2])
      ((task.types.zip task.axiomLayers).map fun entry => (readType entry.1, entry.2)) := by
    have reads := Reads.many fun entry (_ : entry ∈ task.types.zip task.axiomLayers) =>
      reads_variable entry.1 entry.2
    rwa [List.length_zip, sameLayers, min_self] at reads
  have zipped : (task.types.zip task.axiomLayers).map (fun entry => (readType entry.1, entry.2)) =
      (task.types.map readType).zip task.axiomLayers := by
    rw [List.zip_map_left]
    rfl
  have numericValues : Reads (Reader.many Reader.float task.types.length)
      (task.numericValues.map fun value => .float (str value)) (task.numericValues.map str) := by
    have reads := Reads.many fun value (_ : value ∈ task.numericValues) => Reads.float (str value)
    rw [sameValues] at reads
    rwa [List.map_eq_flatMap]
  have axioms : Reads (Reader.many readAxiomNumericComputation task.numericAxioms.length)
      (task.numericAxioms.flatMap WrittenNumericAxiom.output) rules := by
    have reads := Reads.many fun rule (_ : rule ∈ rules) => reads_axiom rule
    rw [List.map_id'] at reads
    rwa [binary, List.length_map, List.flatMap_map]
  have text : task.output =
      [.int task.types.length] ++ ([.word "begin_numeric_variables"] ++
        (((task.types.zip task.axiomLayers).flatMap fun entry =>
          [.word (NumType.code entry.1), .int entry.2]) ++ ([.word "end_numeric_variables"] ++
        ([.word "begin_numeric_state"] ++ ((task.numericValues.map fun value => .float (str value)) ++
        ([.word "end_numeric_state"] ++ ([.int task.numericAxioms.length] ++
        ([.word "begin_numeric_axioms"] ++ (task.numericAxioms.flatMap WrittenNumericAxiom.output ++
        [.word "end_numeric_axioms"]))))))))) := by
    simp [SasNumericTask.output, SasNumericTask.outputVariables, SasNumericTask.outputState,
      SasNumericTask.outputAxioms]
  rw [text, ← zipped]
  unfold readNumericTask
  refine (Reads.nat _).bind <| (Reads.magic _).bind <| numericVariables.bind <| (Reads.magic _).bind <|
    (Reads.magic _).bind <| numericValues.bind <| (Reads.magic _).bind <| (Reads.nat _).bind <|
    (Reads.magic _).bind <| axioms.bind ?_
  exact (Reads.magic _).map fun _ => ReadNumericTask.mk _ _ _

/-! ## Evaluation in the order of the layers -/

/-- Computing the rules one after the other gives a solution, if no rule changes what an earlier one or
itself has used. -/
theorem foldl_compute_fixed {rules : List AxiomNumericComputation}
    (ordered : rules.Pairwise fun earlier later => later.effectVar ≠ earlier.leftVar ∧
      later.effectVar ≠ earlier.rightVar ∧ later.effectVar ≠ earlier.effectVar)
    (ownOperands : ∀ rule ∈ rules, rule.effectVar ≠ rule.leftVar ∧ rule.effectVar ≠ rule.rightVar)
    (values : ℕ → ℚ) : ∀ rule ∈ rules,
      rules.foldl Task.compute values rule.effectVar =
        rule.fop.eval (rules.foldl Task.compute values rule.leftVar)
          (rules.foldl Task.compute values rule.rightVar) := by
  induction rules generalizing values with
  | nil => simp
  | cons first rules inductionHypothesis =>
    rw [List.pairwise_cons] at ordered
    rw [List.forall_mem_cons] at ownOperands ⊢
    refine ⟨?_, inductionHypothesis ordered.2 ownOperands.2 _⟩
    have kept : ∀ var, (∀ rule ∈ rules, rule.effectVar ≠ var) → ∀ values,
        rules.foldl Task.compute values var = values var := by
      intro var untouched values
      apply Task.foldl_untouched
      intro rule isRule values
      exact Function.update_of_ne (untouched rule isRule).symm _ _
    rw [List.foldl_cons, kept _ fun rule isRule => (ordered.1 rule isRule).2.2,
      kept _ fun rule isRule => (ordered.1 rule isRule).1,
      kept _ fun rule isRule => (ordered.1 rule isRule).2.1]
    rw [Task.compute, Function.update_self, Function.update_of_ne ownOperands.1.1.symm,
      Function.update_of_ne ownOperands.1.2.symm]

theorem foldl_compute_of_notMem {rules : List AxiomNumericComputation} {var : ℕ}
    (untouched : ∀ rule ∈ rules, rule.effectVar ≠ var) (values : ℕ → ℚ) :
    rules.foldl Task.compute values var = values var := by
  apply Task.foldl_untouched
  intro rule isRule values
  exact Function.update_of_ne (untouched rule isRule).symm _ _

end CutPlan.Translate
