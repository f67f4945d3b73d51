import CutPlan.Controller.UsableSamples
import CutPlan.Lib.JsonValue

/-! # The body of a response

The members of the JSON object that the console answers a request with.
-/

namespace CutPlan.Controller

open CutPlan.Lib CutPlan.Lib.Json

/-- What the response repeats of the request. -/
structure RequestEcho where
  requestId : Value
  runId : Value
  iteration : ℤ
  stateId : Value
  stateLabel : Value

/-- What the response says of the prompt, and what is only sent on demand. -/
structure PromptReport where
  systemBytes : ℕ
  userBytes : ℕ
  modelOutputs : Option (List (Option String))
  debugFile : Option String
  prompts : Option (String × String)

abbrev Entries := List (String × Value)

def intValue (value : ℤ) : Value := .number (intNumber value)

def optionalText (text : Option String) : Value := text.elim .null .string

namespace ProcessedModelResponse

/-- An empty error is left out. -/
def optionalEntries (response : ProcessedModelResponse) : Entries :=
  response.invalidActionIndex.elim [] (fun index => [("invalid_action_index", intValue index)]) ++
  response.error.elim [] (fun error => if error = "" then [] else [("error", .string error)]) ++
  response.goalReached.elim [] (fun goalReached => [("goal_reached", .bool goalReached)])

def asDict (response : ProcessedModelResponse) : Entries :=
  [("status", .string response.status.text), ("actions", stringsValue response.actions),
    ("generated_action_count", intValue response.generatedActionCount),
    ("legal_action_count", intValue response.legalActionCount)] ++ response.optionalEntries

end ProcessedModelResponse

namespace SampleResult

def report : SampleResult → Entries
  | .processed _ response => response.asDict
  | .failed _ error =>
    [("status", .string RequestStatus.llmError.text), ("actions", stringsValue []), ("error", optionalText error)]

/-- The sample as the response lists it. -/
def members (sample : SampleResult) (index : ℕ) : Dictionary String Value :=
  Dictionary.empty.update (sample.report ++
    [("sample_index", intValue index), ("llm_attempts", intValue sample.generation.attempts),
      ("llm_seconds", .number sample.generation.elapsedSeconds),
      ("llm_seed", sample.generation.seed.elim .null intValue)])

end SampleResult

def RequestEcho.header (echo : RequestEcho) : Entries :=
  [("type", .string "llm_response"), ("request_id", echo.requestId), ("run_id", echo.runId),
    ("iteration", intValue echo.iteration), ("state_id", echo.stateId), ("state_label", echo.stateLabel)]

def PromptReport.entries (report : PromptReport) : Entries :=
  [("prompt_ready", .bool true), ("system_bytes", intValue report.systemBytes),
    ("user_bytes", intValue report.userBytes)]

def PromptReport.outputs (report : PromptReport) : Entries :=
  report.modelOutputs.elim [] (fun outputs => [("model_outputs", .array (outputs.map optionalText))])

/-- What is added to a response that is not an error. -/
def PromptReport.extras (report : PromptReport) : Entries :=
  report.debugFile.elim [] (fun file => [("prompt_debug_file", .string file)]) ++
  report.prompts.elim [] (fun prompts => [("system", .string prompts.1), ("user", .string prompts.2)])

/-- The response from the samples, of which the primary one is repeated. -/
def combinedBody (echo : RequestEcho) (report : PromptReport) (samples : List SampleResult)
    (primary : SampleResult) : Dictionary String Value :=
  let actionChains := samples.map SampleResult.actions
  let response := Dictionary.empty.update (echo.header ++ report.entries)
  let response := response.update ((primary.members (primaryIndex samples)).erase "sample_index").entries
  response.update ([("actions", stringsValue primary.actions), ("action_chains", matrixValue actionChains),
      ("sample_count", intValue samples.length), ("usable_sample_count", intValue (usableIndices samples).length),
      ("samples", .array (samples.zipIdx.map fun sample => .object (sample.1.members sample.2).entries))] ++
    report.outputs ++ report.extras)

def errorBody (echo : RequestEcho) (status : RequestStatus) (error : String) : Dictionary String Value :=
  Dictionary.empty.update (echo.header ++ [("status", .string status.text), ("prompt_ready", .bool false),
    ("actions", stringsValue []), ("error", .string error)])

/-- The response, before the last look at the registry. -/
def Outcome.body (echo : RequestEcho) (report : PromptReport) : Outcome → Dictionary String Value
  | .mock =>
    Dictionary.empty.update (echo.header ++ report.entries ++
      [("status", .string RequestStatus.mock.text), ("actions", stringsValue []), ("action_chains", matrixValue []),
        ("sample_count", intValue 0), ("note", .string "prompts built; live LLM mode is disabled")] ++
      report.extras)
  | .model samples =>
    match primarySample samples with
    | some primary => combinedBody echo report samples primary
    | none => errorBody echo .internalError "IndexError: list index out of range"
  | .promptError error => errorBody echo .promptError error
  | .internalError error => errorBody echo .internalError error
  | .stale error =>
    Dictionary.empty.update (echo.header ++ [("status", .string RequestStatus.staleIteration.text),
      ("prompt_ready", .bool false), ("actions", stringsValue []), ("action_chains", matrixValue []),
      ("sample_count", intValue 0), ("usable_sample_count", intValue 0), ("error", .string error)])

/-- The response that is sent. -/
def Outcome.sentBody (echo : RequestEcho) (report : PromptReport) (outcome : Outcome) (active : Bool) :
    Dictionary String Value :=
  if outcome.result.status ≠ .staleIteration ∧ active = false then
    (outcome.body echo report).update [("status", .string RequestStatus.staleIteration.text),
      ("actions", stringsValue []), ("action_chains", matrixValue []), ("usable_sample_count", intValue 0),
      ("error", .string "iteration ended before HTTP response")]
  else outcome.body echo report

/-! ## What the search reads of the body -/

/-- The members of a body that the search looks at. -/
structure Carries (body : Dictionary String Value) (status : RequestStatus) (actions : List String)
    (actionChains : Option (List (List String))) : Prop where
  status : body.get? "status" = some (.string status.text)
  actions : body.get? "actions" = some (stringsValue actions)
  actionChains : body.get? "action_chains" = actionChains.map matrixValue

namespace Outcome

def actions : Outcome → List String
  | .model samples => (primarySample samples).elim [] SampleResult.actions
  | _ => []

/-- Errors have no action chains. -/
def actionChains : Outcome → Option (List (List String))
  | .model samples => (primarySample samples).map fun _ => samples.map SampleResult.actions
  | .mock | .stale _ => some []
  | .promptError _ | .internalError _ => none

end Outcome

variable {echo : RequestEcho} {report : PromptReport}

theorem notMem_extras {key : String} (isOther : key ∉ ["prompt_debug_file", "system", "user"]) :
    key ∉ report.extras.map Prod.fst := by
  obtain ⟨_, _, _, debugFile, prompts⟩ := report
  revert isOther
  cases debugFile <;> cases prompts <;> simp +contextual [PromptReport.extras]

theorem notMem_outputs {key : String} (isOther : key ≠ "model_outputs") : key ∉ report.outputs.map Prod.fst := by
  obtain ⟨_, _, modelOutputs, _, _⟩ := report
  cases modelOutputs <;> simp [PromptReport.outputs, isOther]

theorem notMem_optionalEntries {response : ProcessedModelResponse} {key : String}
    (isOther : key ∉ ["invalid_action_index", "error", "goal_reached"]) :
    key ∉ response.optionalEntries.map Prod.fst := by
  obtain ⟨_, _, _, _, invalidActionIndex, error, goalReached⟩ := response
  simp only [List.mem_cons, List.not_mem_nil, or_false, not_or] at isOther
  simp only [ProcessedModelResponse.optionalEntries, List.map_append, List.mem_append, not_or]
  refine ⟨⟨?_, ?_⟩, ?_⟩
  · cases invalidActionIndex <;> simp [isOther.1]
  · cases error with
    | none => simp
    | some error =>
      simp only [Option.elim_some]
      split <;> simp [isOther.2.1]
  · cases goalReached <;> simp [isOther.2.2]

theorem members_status (sample : SampleResult) (index : ℕ) :
    (sample.members index).get? "status" = some (.string sample.status.text) := by
  cases sample with
  | processed generation response =>
    have notOptional : "status" ∉ response.optionalEntries.map Prod.fst := notMem_optionalEntries (by decide)
    rw [SampleResult.members, SampleResult.report, ProcessedModelResponse.asDict, List.append_assoc,
      List.cons_append]
    apply Dictionary.get?_update_cons
    simp only [List.map_append, List.mem_append, not_or]
    exact ⟨by simp, notOptional, by simp⟩
  | failed generation error => rfl

theorem errorBody_carries (status : RequestStatus) (error : String) :
    Carries (errorBody echo status error) status [] none where
  status := by
    rw [errorBody, Dictionary.update_append]
    exact Dictionary.get?_update_cons _ (by simp)
  actions := by
    rw [errorBody, Dictionary.update_append]
    exact Dictionary.get?_update_of_mem (by simp) (by simp)
  actionChains := Dictionary.get?_update_of_notMem (by simp [RequestEcho.header])

theorem combinedBody_carries (samples : List SampleResult) (primary : SampleResult) :
    Carries (combinedBody echo report samples primary) primary.status primary.actions
      (some (samples.map SampleResult.actions)) where
  status := by
    rw [combinedBody, Dictionary.update_append, Dictionary.get?_update_of_notMem (notMem_extras (by decide)),
      Dictionary.update_append, Dictionary.get?_update_of_notMem (notMem_outputs (by decide)),
      Dictionary.get?_update_of_notMem (by simp)]
    apply Dictionary.get?_update_entries
    rw [Dictionary.get?_erase_of_ne (by decide), members_status]
  actions := by
    rw [combinedBody, Dictionary.update_append, Dictionary.get?_update_of_notMem (notMem_extras (by decide)),
      Dictionary.update_append, Dictionary.get?_update_of_notMem (notMem_outputs (by decide))]
    exact Dictionary.get?_update_of_mem (by simp) (by simp)
  actionChains := by
    rw [combinedBody, Dictionary.update_append, Dictionary.get?_update_of_notMem (notMem_extras (by decide)),
      Dictionary.update_append, Dictionary.get?_update_of_notMem (notMem_outputs (by decide))]
    exact Dictionary.get?_update_of_mem (by simp) (by simp)

/-- The members agree with what is recorded of the request. -/
theorem body_carries (outcome : Outcome) :
    Carries (outcome.body echo report) outcome.result.status outcome.actions outcome.actionChains := by
  cases outcome with
  | mock =>
    constructor
    all_goals
      rw [Outcome.body, Dictionary.update_append, Dictionary.get?_update_of_notMem (notMem_extras (by decide)),
        Dictionary.update_append]
      exact Dictionary.get?_update_of_mem (by simp) (by simp [Outcome.result, Outcome.actions])
  | model samples =>
    rw [Outcome.body, Outcome.result, Outcome.actions, Outcome.actionChains]
    cases primarySample samples with
    | none => exact errorBody_carries _ _
    | some primary => exact combinedBody_carries samples primary
  | promptError error => exact errorBody_carries _ _
  | internalError error => exact errorBody_carries _ _
  | stale error =>
    constructor
    all_goals
      rw [Outcome.body, Dictionary.update_append]
      exact Dictionary.get?_update_of_mem (by simp) (by simp [Outcome.result, Outcome.actions])

theorem sentBody_carries (outcome : Outcome) (active : Bool) :
    if outcome.result.status ≠ .staleIteration ∧ active = false then
      Carries (outcome.sentBody echo report active) .staleIteration [] (some [])
    else Carries (outcome.sentBody echo report active) outcome.result.status outcome.actions outcome.actionChains := by
  rw [Outcome.sentBody]
  split
  · constructor
    all_goals exact Dictionary.get?_update_of_mem (by simp) (by simp)
  · exact body_carries outcome

end CutPlan.Controller
