import CutPlan.Lib.JsonValue
import Mathlib.Data.Int.Notation
import Mathlib.Tactic.Tauto

/-! # Responses to the search

`PlanResponseProcessor` keeps the legal prefix of a generated plan, and the console combines the results
of several samples into one response.
-/

namespace CutPlan.Controller

/-- The statuses of samples and of requests. -/
inductive RequestStatus where
  | received
  | ok
  | partialPlan
  | invalidPlan
  | parseError
  | validationError
  | llmError
  | mock
  | promptError
  | internalError
  | staleIteration
  | discardedPhaseEnd
  deriving DecidableEq, Repr

def RequestStatus.text : RequestStatus → String
  | .received => "received"
  | .ok => "ok"
  | .partialPlan => "partial"
  | .invalidPlan => "invalid_plan"
  | .parseError => "parse_error"
  | .validationError => "validation_error"
  | .llmError => "llm_error"
  | .mock => "mock"
  | .promptError => "prompt_error"
  | .internalError => "internal_error"
  | .staleIteration => "stale_iteration"
  | .discardedPhaseEnd => "discarded_phase_end"

/-! ## Validation -/

structure ActionCall where
  pythonName : String
  pddlName : String
  parameters : List String
  deriving DecidableEq, Repr

def ActionCall.asPddl (action : ActionCall) : String :=
  let suffix := if action.parameters = [] then "" else " " ++ " ".intercalate action.parameters
  "(" ++ action.pddlName ++ suffix ++ ")"

/-- What the planning library does with a parsed problem.  An unknown name, and a failing simulation, are
reported with a text. -/
structure Simulator (State : Type) where
  initialState : State
  isGoal : Option (State → Bool)
  action : String → Except String Unit
  object : String → Except String Unit
  isApplicable : State → String → List String → Except String Bool
  apply : State → String → List String → Except String State

structure PrefixValidationResult where
  legalActions : List ActionCall
  totalActions : ℕ
  invalidActionIndex : Option ℕ
  error : Option String
  goalReached : Option Bool
  deriving DecidableEq, Repr

namespace Simulator

variable {State : Type} (simulator : Simulator State)

def lookup (action : ActionCall) : Except String Unit := do
  simulator.action action.pddlName
  action.parameters.forM simulator.object

/-- The loop over the actions, with the number of the next one. -/
def simulate (total : ℕ) :
    State → Option Bool → List ActionCall → List ActionCall → Except String PrefixValidationResult
  | _, goalReached, legalActions, [] => .ok ⟨legalActions, total, none, none, goalReached⟩
  | currentState, goalReached, legalActions, action :: actions =>
    if goalReached = some true then .ok ⟨legalActions, total, none, none, goalReached⟩
    else
      match simulator.lookup action with
      | .error text =>
        .ok ⟨legalActions, total, some legalActions.length, some ("unknown action or object: " ++ text),
          goalReached⟩
      | .ok () => do
        if ← simulator.isApplicable currentState action.pddlName action.parameters then
          let successor ← simulator.apply currentState action.pddlName action.parameters
          let goalReached := match simulator.isGoal with
            | some isGoal => some (isGoal successor)
            | none => goalReached
          simulate total successor goalReached (legalActions ++ [action]) actions
        else
          return ⟨legalActions, total, some legalActions.length,
            some ("action is not applicable: " ++ action.asPddl), goalReached⟩

def validate (actions : List ActionCall) : Except String PrefixValidationResult :=
  (simulator.simulate actions.length simulator.initialState
    (simulator.isGoal.map (· simulator.initialState)) [] actions).mapError ("simulation failed: " ++ ·)

end Simulator

structure ProcessedModelResponse where
  status : RequestStatus
  actions : List String
  generatedActionCount : ℕ
  legalActionCount : ℕ
  invalidActionIndex : Option ℕ
  error : Option String
  goalReached : Option Bool
  deriving DecidableEq, Repr

/-- `process`, from the actions that were found in the text and the parsed problem. -/
def processResponse {State : Type} (actionCalls : Except String (List ActionCall))
    (problem : Except String (Simulator State)) : ProcessedModelResponse :=
  match actionCalls with
  | .error text => ⟨.parseError, [], 0, 0, none, some text, none⟩
  | .ok actionCalls =>
    match problem.mapError ("failed to parse runtime PDDL: " ++ ·) >>= (·.validate actionCalls) with
    | .error text => ⟨.validationError, [], actionCalls.length, 0, none, some text, none⟩
    | .ok validation =>
      let legalPddl := validation.legalActions.map ActionCall.asPddl
      let status :=
        if legalPddl = [] then .invalidPlan
        else if validation.goalReached = some true then .ok
        else if legalPddl.length < actionCalls.length then .partialPlan
        else .ok
      ⟨status, legalPddl, actionCalls.length, legalPddl.length, validation.invalidActionIndex,
        validation.error, validation.goalReached⟩

/-! ## Samples -/

/-- A generation of the model, apart from its text. -/
structure Generation where
  attempts : ℕ
  elapsedSeconds : Lib.Json.NumberText
  seed : Option ℤ
  deriving DecidableEq

/-- The result of a generation: its processed text, or the error of the model. -/
inductive SampleResult where
  | processed (generation : Generation) (response : ProcessedModelResponse)
  | failed (generation : Generation) (error : Option String)
  deriving DecidableEq

namespace SampleResult

def generation : SampleResult → Generation
  | .processed generation _ | .failed generation _ => generation

def status : SampleResult → RequestStatus
  | .processed _ response => response.status
  | .failed _ _ => .llmError

/-- The action chain of a sample. -/
def actions : SampleResult → List String
  | .processed _ response => response.actions
  | .failed _ _ => []

def error : SampleResult → Option String
  | .processed _ response => response.error
  | .failed _ error => error

def usable (sample : SampleResult) : Bool :=
  (sample.status = .ok || sample.status = .partialPlan) && !sample.actions.isEmpty

end SampleResult

/-- A generation and what was found in its text, or the error of the model. -/
structure ModelOutput where
  generation : Generation
  content : Except (Option String) (Except String (List ActionCall))

def sampleResult {State : Type} (problem : Except String (Simulator State)) (output : ModelOutput) :
    SampleResult :=
  match output.content with
  | .ok actionCalls => .processed output.generation (processResponse actionCalls problem)
  | .error error => .failed output.generation error

def usableIndices (samples : List SampleResult) : List ℕ :=
  (samples.zipIdx.filter (·.1.usable)).map Prod.snd

def primaryIndex (samples : List SampleResult) : ℕ :=
  (usableIndices samples).headD 0

/-- The sample whose members the response repeats.  Without samples there is none. -/
def primarySample (samples : List SampleResult) : Option SampleResult :=
  samples[primaryIndex samples]?

/-! ## Usable samples -/

theorem mem_usableIndices {samples : List SampleResult} {index : ℕ} :
    index ∈ usableIndices samples ↔ ∃ sample, samples[index]? = some sample ∧ sample.usable = true := by
  simp only [usableIndices, List.mem_map, List.mem_filter, Prod.exists, exists_eq_right,
    List.mem_zipIdx_iff_getElem?]

theorem primarySample_usable {samples : List SampleResult} (some_usable : usableIndices samples ≠ []) :
    ∃ sample, primarySample samples = some sample ∧ sample.usable = true := by
  obtain ⟨index, indices, isList⟩ := List.exists_cons_of_ne_nil some_usable
  have isFirst : primaryIndex samples = index := by simp [primaryIndex, isList]
  rw [primarySample, isFirst]
  exact mem_usableIndices.mp (by simp [isList])

theorem status_of_usable {sample : SampleResult} (usable : sample.usable = true) :
    sample.status = .ok ∨ sample.status = .partialPlan := by
  simpa using (Bool.and_eq_true_iff.mp usable).1

/-- A processed plan has actions exactly when its status says so. -/
theorem processResponse_actions {State : Type} (actionCalls : Except String (List ActionCall))
    (problem : Except String (Simulator State)) :
    (processResponse actionCalls problem).actions ≠ [] ↔
      (processResponse actionCalls problem).status = .ok ∨
        (processResponse actionCalls problem).status = .partialPlan := by
  unfold processResponse
  split
  · simp
  · split
    · simp
    · dsimp only
      split
      · rename_i isEmpty
        simp [isEmpty]
      · rename_i notEmpty
        simp only [notEmpty, ne_eq, not_false_eq_true, true_iff]
        split
        · exact .inl rfl
        · split
          · exact .inr rfl
          · exact .inl rfl

theorem usable_iff (sample : SampleResult) :
    sample.usable = true ↔ (sample.status = .ok ∨ sample.status = .partialPlan) ∧ sample.actions ≠ [] := by
  simp [SampleResult.usable]

theorem processResponse_status {State : Type} (actionCalls : Except String (List ActionCall))
    (problem : Except String (Simulator State)) :
    (processResponse actionCalls problem).status ∈
      [.ok, .partialPlan, .invalidPlan, .parseError, .validationError] := by
  unfold processResponse
  split
  · simp
  · split
    · simp
    · dsimp only
      split
      · simp
      · split
        · simp
        · split <;> simp

theorem sampleResult_status {State : Type} (problem : Except String (Simulator State)) (output : ModelOutput) :
    (sampleResult problem output).status ∈
      [.ok, .partialPlan, .invalidPlan, .parseError, .validationError, .llmError] := by
  unfold sampleResult
  cases output.content with
  | error error => simp [SampleResult.status]
  | ok actionCalls =>
    have isStatus := processResponse_status actionCalls problem
    simp only [SampleResult.status, List.mem_cons] at isStatus ⊢
    tauto

theorem sampleResult_actions {State : Type} (problem : Except String (Simulator State)) (output : ModelOutput) :
    (sampleResult problem output).actions ≠ [] ↔
      (sampleResult problem output).status = .ok ∨ (sampleResult problem output).status = .partialPlan := by
  unfold sampleResult
  cases output.content with
  | error error => simp [SampleResult.actions, SampleResult.status]
  | ok actionCalls => exact processResponse_actions actionCalls problem

theorem sampleResult_usable {State : Type} (problem : Except String (Simulator State)) (output : ModelOutput) :
    (sampleResult problem output).usable = true ↔ (sampleResult problem output).actions ≠ [] := by
  rw [usable_iff, ← sampleResult_actions, and_self]

theorem exists_primarySample {samples : List SampleResult} (nonempty : samples ≠ []) :
    ∃ primary ∈ samples, primarySample samples = some primary := by
  by_cases noneUsable : usableIndices samples = []
  · obtain ⟨first, rest, rfl⟩ := List.exists_cons_of_ne_nil nonempty
    exact ⟨first, List.mem_cons_self .., by simp [primarySample, primaryIndex, noneUsable]⟩
  · obtain ⟨primary, isPrimary, _⟩ := primarySample_usable noneUsable
    exact ⟨primary, List.mem_of_getElem? isPrimary, isPrimary⟩

/-- The primary sample is usable once some sample is. -/
theorem primary_status_iff {State : Type} {problem : Except String (Simulator State)}
    {outputs : List ModelOutput} {primary : SampleResult}
    (isPrimary : primarySample (outputs.map (sampleResult problem)) = some primary) :
    primary.status = .ok ∨ primary.status = .partialPlan ↔
      ∃ output ∈ outputs, (sampleResult problem output).actions ≠ [] := by
  constructor
  · intro accepted
    obtain ⟨output, isOutput, rfl⟩ := List.mem_map.mp (List.mem_of_getElem? isPrimary)
    exact ⟨output, isOutput, (sampleResult_actions problem output).mpr accepted⟩
  · rintro ⟨output, isOutput, nonempty⟩
    obtain ⟨index, isIndex⟩ := List.mem_iff_getElem?.mp (List.mem_map_of_mem (f := sampleResult problem) isOutput)
    have isUsable := mem_usableIndices.mpr ⟨_, isIndex, (sampleResult_usable problem output).mpr nonempty⟩
    obtain ⟨usable, isFirst, firstUsable⟩ := primarySample_usable (List.ne_nil_of_mem isUsable)
    cases isFirst.symm.trans isPrimary
    exact status_of_usable firstUsable

/-! ## Known names -/

namespace Simulator

open Lib.Json

variable {State : Type} {simulator : Simulator State}

/-- The names of actions and objects have no control characters. -/
structure PrintableNames (simulator : Simulator State) : Prop where
  action : ∀ name, simulator.action name = .ok () → Printable name
  object : ∀ name, simulator.object name = .ok () → Printable name

theorem forM_ok {names : List String} {check : String → Except String Unit} (all : names.forM check = .ok ()) :
    ∀ name ∈ names, check name = .ok () := by
  induction names with
  | nil => simp
  | cons first names inductionHypothesis =>
    change (check first >>= fun _ => names.forM check) = .ok () at all
    cases isFirst : check first with
    | error text =>
      rw [isFirst] at all
      cases all
    | ok =>
      rw [isFirst] at all
      rw [List.forall_mem_cons]
      exact ⟨isFirst, inductionHypothesis all⟩

/-- Legal actions are known. -/
theorem simulate_known {total : ℕ} {currentState : State} {goalReached : Option Bool}
    {legalActions actions : List ActionCall} {result : PrefixValidationResult}
    (known : ∀ action ∈ legalActions, simulator.lookup action = .ok ())
    (simulates : simulator.simulate total currentState goalReached legalActions actions = .ok result) :
    ∀ action ∈ result.legalActions, simulator.lookup action = .ok () := by
  induction actions generalizing currentState goalReached legalActions with
  | nil =>
    cases simulates
    exact known
  | cons action actions inductionHypothesis =>
    rw [simulate] at simulates
    split at simulates
    · cases simulates
      exact known
    cases isKnown : simulator.lookup action with
    | error text =>
      rw [isKnown] at simulates
      cases simulates
      exact known
    | ok =>
      rw [isKnown] at simulates
      simp only at simulates
      cases applicable : simulator.isApplicable currentState action.pddlName action.parameters with
      | error text =>
        rw [applicable] at simulates
        cases simulates
      | ok isApplicable =>
        rw [applicable] at simulates
        cases isApplicable with
        | false =>
          cases simulates
          exact known
        | true =>
          cases applied : simulator.apply currentState action.pddlName action.parameters with
          | error text =>
            simp only [applied] at simulates
            cases simulates
          | ok successor =>
            simp only [applied] at simulates
            apply inductionHypothesis _ simulates
            simp only [List.forall_mem_append, List.forall_mem_singleton]
            exact ⟨known, isKnown⟩

theorem validate_known {actions : List ActionCall} {validation : PrefixValidationResult}
    (validates : simulator.validate actions = .ok validation) :
    ∀ action ∈ validation.legalActions, simulator.lookup action = .ok () := by
  rw [validate] at validates
  cases simulates : simulator.simulate actions.length simulator.initialState
      (simulator.isGoal.map (· simulator.initialState)) [] actions with
  | error text =>
    rw [simulates] at validates
    cases validates
  | ok result =>
    rw [simulates] at validates
    cases validates
    exact simulate_known (fun _ isLegal => absurd isLegal List.not_mem_nil) simulates

theorem printable_append {first second : String} (isFirst : Printable first) (isSecond : Printable second) :
    Printable (first ++ second) := by
  rw [Printable, String.toList_append, List.forall_mem_append]
  exact ⟨isFirst, isSecond⟩

theorem printable_intercalate {names : List String} (areNames : ∀ name ∈ names, Printable name) :
    Printable (" ".intercalate names) := by
  induction names with
  | nil => decide
  | cons first rest inductionHypothesis =>
    rw [List.forall_mem_cons] at areNames
    cases rest with
    | nil => simpa using areNames.1
    | cons second rest =>
      rw [String.intercalate_cons_cons]
      exact printable_append (printable_append areNames.1 (by decide)) (inductionHypothesis areNames.2)

theorem PrintableNames.asPddl (names : simulator.PrintableNames) {action : ActionCall}
    (isKnown : simulator.lookup action = .ok ()) : Printable action.asPddl := by
  cases isAction : simulator.action action.pddlName with
  | error text =>
    rw [lookup, isAction] at isKnown
    cases isKnown
  | ok =>
    rw [lookup, isAction] at isKnown
    have areObjects := forM_ok isKnown
    have parameters := printable_intercalate fun name isName => names.object name (areObjects name isName)
    rw [ActionCall.asPddl]
    apply printable_append (printable_append (printable_append (by decide) (names.action _ isAction)) _) (by decide)
    split
    · decide
    · exact printable_append (by decide) parameters

/-- The actions of a sample have no control characters. -/
theorem printable_actions {problem : Except String (Simulator State)}
    (names : ∀ simulator, problem = .ok simulator → simulator.PrintableNames) (output : ModelOutput) :
    ∀ action ∈ (sampleResult problem output).actions, Printable action := by
  unfold sampleResult
  cases output.content with
  | error error => simp [SampleResult.actions]
  | ok actionCalls =>
    simp only [SampleResult.actions, processResponse]
    cases actionCalls with
    | error text => simp
    | ok actionCalls =>
      cases problem with
      | error text => simp [Except.mapError, bind, Except.bind]
      | ok simulator =>
        cases validates : simulator.validate actionCalls with
        | error text => simp [Except.mapError, bind, Except.bind, validates]
        | ok validation =>
          simp only [Except.mapError, bind, Except.bind, validates, List.forall_mem_map]
          exact fun action isLegal => (names simulator rfl).asPddl (validate_known validates action isLegal)

end Simulator

end CutPlan.Controller
