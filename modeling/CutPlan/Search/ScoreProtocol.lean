import CutPlan.Search.ScorerJson

/-! # Messages to the scorer

`parse_message`.  An error leaves the parts of the request that have been read.
-/

namespace CutPlan.Search

open CutPlan.Lib CutPlan.Lib.Json

def protocolVersion : ℤ := 1

structure ScoreRequest where
  protocolVersion : ℤ := CutPlan.Search.protocolVersion
  requestId : Text := []
  problemId : Text := []
  taskHash : Text := []
  actions : List Text := []
  deriving DecidableEq

inductive MessageKind where
  | scoreRequest
  | shutdown
  | invalid
  deriving DecidableEq, Repr

structure ParsedMessage where
  kind : MessageKind := .invalid
  request : ScoreRequest := {}
  error : Text := []
  deriving DecidableEq

/-- The members of an object. -/
abbrev JsonObject := List (Text × JsonValue)

def findField (object : JsonObject) (key : String) : Option JsonValue := object.lookup (asciiText key)

/-! ## Fields -/

def missingField (key : String) : Text := asciiText ("missing required field '" ++ key ++ "'")

def stringValue (key : String) : JsonValue → Except Text Text
  | .string value => .ok value
  | _ => .error (asciiText ("field '" ++ key ++ "' must be a string"))

/-- The numbers that are read as an `int`. -/
def IsInt (value : ℚ) : Prop := (⌊value⌋ : ℚ) = value ∧ -2 ^ 31 ≤ value ∧ value ≤ 2 ^ 31 - 1

instance (value : ℚ) : Decidable (IsInt value) := inferInstanceAs (Decidable (_ ∧ _))

def intValue (key : String) : JsonValue → Except Text ℤ
  | .number value =>
    if IsInt value then .ok ⌊value⌋ else .error (asciiText ("field '" ++ key ++ "' must be an integer"))
  | _ => .error (asciiText ("field '" ++ key ++ "' must be an integer"))

/-- `read_string_field` and `read_int_field` of a field that is required. -/
def readRequired {α : Type} (read : String → JsonValue → Except Text α) (object : JsonObject) (key : String) :
    Except Text α :=
  match findField object key with
  | none => .error (missingField key)
  | some value => read key value

/-- The same of a field that may be missing. -/
def readOptional {α : Type} (read : String → JsonValue → Except Text α) (object : JsonObject) (key : String) :
    Except Text (Option α) :=
  match findField object key with
  | none => .ok none
  | some value => (read key value).map some

/-- An optional field is stored, or an error. -/
def ParsedMessage.readField (parsed : ParsedMessage) (object : JsonObject) (key : String)
    (store : ScoreRequest → Text → ScoreRequest) : ParsedMessage :=
  match readOptional stringValue object key with
  | .ok none => parsed
  | .ok (some value) => { parsed with request := store parsed.request value }
  | .error error => { parsed with error }

/-! ## Messages -/

def parseShutdown (root : JsonObject) (parsed : ParsedMessage) : ParsedMessage :=
  match readOptional intValue root "protocol_version" with
  | .error error => { parsed with error }
  | .ok version =>
    if version.getD protocolVersion ≠ protocolVersion then
      { parsed with error := asciiText "unsupported protocol_version" }
    else
      { parsed with
        kind := .shutdown
        request := { parsed.request with protocolVersion := version.getD protocolVersion } }

/-- The loop over the actions. -/
def parseActions (parsed : ParsedMessage) : List JsonValue → ParsedMessage
  | [] => { parsed with kind := .scoreRequest }
  | .string action :: actions =>
    parseActions
      { parsed with request := { parsed.request with actions := parsed.request.actions ++ [action] } } actions
  | _ :: _ => { parsed with error := asciiText "every item in 'actions' must be a string" }

/-- A field that must be a nonempty string. -/
def readNonempty (root : JsonObject) (key : String) : Except Text Text :=
  match readRequired stringValue root key with
  | .error error => .error error
  | .ok value => if value = [] then .error (asciiText ("field '" ++ key ++ "' must not be empty")) else .ok value

def parseScoreRequest (root : JsonObject) (parsed : ParsedMessage) : ParsedMessage :=
  match readRequired intValue root "protocol_version" with
  | .error error => { parsed with error }
  | .ok version =>
    let parsed := { parsed with request := { parsed.request with protocolVersion := version } }
    if version ≠ protocolVersion then { parsed with error := asciiText "unsupported protocol_version" }
    else
      match readNonempty root "request_id" with
      | .error error => { parsed with error }
      | .ok requestId =>
        let parsed := { parsed with request := { parsed.request with requestId } }
        match readNonempty root "problem_id" with
        | .error error => { parsed with error }
        | .ok problemId =>
          let parsed := { parsed with request := { parsed.request with problemId } }
          match readNonempty root "task_hash" with
          | .error error => { parsed with error }
          | .ok taskHash =>
            let parsed := { parsed with request := { parsed.request with taskHash } }
            match findField root "actions" with
            | none => { parsed with error := missingField "actions" }
            | some (.array actions) => parseActions parsed actions
            | some _ => { parsed with error := asciiText "field 'actions' must be an array" }

/-- The fields that every message may have. -/
def readIds (root : JsonObject) : ParsedMessage :=
  let parsed : ParsedMessage := {}
  let parsed := parsed.readField root "request_id" fun request value => { request with requestId := value }
  let parsed := parsed.readField root "problem_id" fun request value => { request with problemId := value }
  parsed.readField root "task_hash" fun request value => { request with taskHash := value }

def parseRoot (root : JsonObject) : ParsedMessage :=
  match readRequired stringValue root "type" with
  | .error error => { error }
  | .ok type =>
    let parsed := readIds root
    if parsed.error ≠ [] then parsed
    else if type = asciiText "shutdown" then parseShutdown root parsed
    else if type ≠ asciiText "score_request" then
      { parsed with error := asciiText "field 'type' must be 'score_request' or 'shutdown'" }
    else parseScoreRequest root parsed

/-- The text of an exception ends at its first null byte. -/
def whatText (message : Text) : Text := message.takeWhile (· ≠ 0)

def parseMessage (line : Text) : ParsedMessage :=
  match JsonParser.parse line with
  | .error error => { error := whatText error }
  | .ok (.object root) => parseRoot root
  | .ok _ => { error := asciiText "top-level JSON value must be an object" }

end CutPlan.Search
