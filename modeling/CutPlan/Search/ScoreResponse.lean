import CutPlan.Lib.DecimalPrinting
import CutPlan.Search.ScoreProtocol

/-! # Messages of the scorer

The serialized responses, the ready message and the acknowledgement of a shutdown.
-/

namespace CutPlan.Search

open CutPlan.Lib CutPlan.Lib.Json

/-- The values of a `double`. -/
inductive Double where
  | finite (negative : Bool) (magnitude : ℚ)
  | infinite (negative : Bool)
  | nan (negative : Bool)

namespace Double

def isFinite : Double → Bool
  | .finite _ _ => true
  | _ => false

/-- What a stream prints with `setprecision(17)`. -/
def print : Double → Text
  | .finite negative magnitude => signText negative ++ generalText 17 magnitude
  | .infinite negative => signText negative ++ asciiText "inf"
  | .nan negative => signText negative ++ asciiText "nan"

end Double

structure TrajectoryStateInfo where
  stateIndex : ℕ
  stateId : ℕ
  hasH : Bool
  h : Double

structure ActionChainEvaluationResult where
  status : Text := asciiText "ok"
  outcome : Text := []
  errorMessage : Text := []
  generatedActionCount : ℕ := 0
  appliedActionCount : ℕ := 0
  hasInvalidAction : Bool := false
  invalidActionIndex : ℕ := 0
  pathCost : Double := .finite false 0
  registeredStateCount : ℕ := 0
  scorerSeconds : Double := .finite false 0
  states : List TrajectoryStateInfo := []

/-! ## Strings and optional values -/

def escapeChar (ch : UInt8) : Text :=
  if ch = ascii '"' then asciiText "\\\""
  else if ch = ascii '\\' then asciiText "\\\\"
  else if ch = 0x08 then asciiText "\\b"
  else if ch = 0x0C then asciiText "\\f"
  else if ch = 0x0A then asciiText "\\n"
  else if ch = 0x0D then asciiText "\\r"
  else if ch = 0x09 then asciiText "\\t"
  else if ch < 0x20 then
    let hex := asciiText "0123456789abcdef"
    asciiText "\\u00" ++ [hex.getD (ch.toNat >>> 4 &&& 0xF) 0, hex.getD (ch.toNat &&& 0xF) 0]
  else [ch]

def appendJsonString (value : Text) : Text := ascii '"' :: value.flatMap escapeChar ++ [ascii '"']

def appendOptionalString (hasValue : Bool) (value : Text) : Text :=
  if hasValue then appendJsonString value else asciiText "null"

def appendOptionalNumber (hasValue : Bool) (value : Double) : Text :=
  if hasValue && value.isFinite then value.print else asciiText "null"

def appendState (state : TrajectoryStateInfo) : Text :=
  asciiText "\x7b\"state_index\":" ++ decimal state.stateIndex ++ asciiText ",\"state_id\":" ++ decimal state.stateId ++
    asciiText ",\"h\":" ++ appendOptionalNumber state.hasH state.h ++ asciiText "\x7d"

/-! ## Messages -/

def printedVersion : Text := decimal protocolVersion.toNat

def serializeReady (taskHash heuristicConfig : Text) (maxRequestBytes : ℕ) : Text :=
  asciiText "\x7b\"type\":\"ready\",\"protocol_version\":" ++ printedVersion ++ asciiText ",\"task_hash\":" ++
    appendJsonString taskHash ++ asciiText ",\"heuristic_config\":" ++ appendJsonString heuristicConfig ++
    asciiText ",\"max_request_bytes\":" ++ decimal maxRequestBytes ++ asciiText "\x7d"

def serializeScoreResponse (request : ScoreRequest) (loadedTaskHash : Text) (result : ActionChainEvaluationResult)
    (recycleRecommended : Bool) (recycleReason : Text) : Text :=
  asciiText "\x7b\"type\":\"score_response\",\"protocol_version\":" ++ printedVersion ++
    asciiText ",\"request_id\":" ++ appendJsonString request.requestId ++
    asciiText ",\"problem_id\":" ++ appendJsonString request.problemId ++
    asciiText ",\"task_hash\":" ++ appendJsonString loadedTaskHash ++
    asciiText ",\"status\":" ++ appendJsonString result.status ++
    asciiText ",\"outcome\":" ++ appendOptionalString (result.outcome ≠ []) result.outcome ++
    asciiText ",\"generated_action_count\":" ++ decimal result.generatedActionCount ++
    asciiText ",\"applied_action_count\":" ++ decimal result.appliedActionCount ++
    asciiText ",\"invalid_action_index\":" ++
      (if result.hasInvalidAction then decimal result.invalidActionIndex else asciiText "null") ++
    asciiText ",\"path_cost\":" ++ result.pathCost.print ++
    asciiText ",\"registered_state_count\":" ++ decimal result.registeredStateCount ++
    asciiText ",\"scorer_seconds\":" ++ result.scorerSeconds.print ++
    asciiText ",\"recycle_recommended\":" ++ asciiText (if recycleRecommended then "true" else "false") ++
    asciiText ",\"recycle_reason\":" ++ appendOptionalString recycleRecommended recycleReason ++
    asciiText ",\"error\":" ++ appendOptionalString (result.errorMessage ≠ []) result.errorMessage ++
    asciiText ",\"states\":[" ++ commaSeparated (result.states.map appendState) ++ asciiText "]\x7d"

def serializeErrorResponse (request : ScoreRequest) (loadedTaskHash status errorMessage : Text) : Text :=
  serializeScoreResponse request loadedTaskHash
    { status, errorMessage, generatedActionCount := request.actions.length } false []

def serializeShutdownAck (requestId taskHash : Text) : Text :=
  asciiText "\x7b\"type\":\"shutdown_ack\",\"protocol_version\":" ++ printedVersion ++
    asciiText ",\"request_id\":" ++ appendJsonString requestId ++ asciiText ",\"task_hash\":" ++
    appendJsonString taskHash ++ asciiText "\x7d"

end CutPlan.Search
