import CutPlan.Lib.JsonText
import CutPlan.Search.LlmMonitor

/-! # The scanner of responses

`parse_llm_response_body` and its helpers.  A position in the text is the text from there on.
-/

namespace CutPlan.Search

open CutPlan.Lib.Json

def isSpaceByte (byte : UInt8) : Bool := byte = 0x20 || (0x09 ≤ byte && byte ≤ 0x0D)

def skipJsonWhitespace (text : Text) : Text := text.dropWhile isSpaceByte

/-- What a short escape stands for. -/
def unescape (escaped : UInt8) : Option UInt8 :=
  if escaped = ascii '"' then some (ascii '"')
  else if escaped = ascii '\\' then some (ascii '\\')
  else if escaped = ascii '/' then some (ascii '/')
  else if escaped = ascii 'b' then some 0x08
  else if escaped = ascii 'f' then some 0x0C
  else if escaped = ascii 'n' then some 0x0A
  else if escaped = ascii 'r' then some 0x0D
  else if escaped = ascii 't' then some 0x09
  else none

/-- The loop of `parse_json_string`.  Unicode escapes are skipped over and become question marks. -/
def parseStringBytes (result : Text) : Text → Except String (Text × Text)
  | [] => .error "unterminated JSON string"
  | ch :: text =>
    if ch = ascii '"' then .ok (result, text)
    else if ch ≠ ascii '\\' then parseStringBytes (result ++ [ch]) text
    else
      match text with
      | [] => .error "truncated JSON escape"
      | escaped :: text =>
        match unescape escaped with
        | some value => parseStringBytes (result ++ [value]) text
        | none =>
          if escaped = ascii 'u' then
            match text with
            | _ :: _ :: _ :: _ :: text => parseStringBytes (result ++ [ascii '?']) text
            | _ => .error "truncated JSON unicode escape"
          else .error "invalid JSON escape"

def parseJsonString (text : Text) : Except String (Text × Text) :=
  match skipJsonWhitespace text with
  | ch :: text => if ch = ascii '"' then parseStringBytes [] text else .error "expected JSON string"
  | [] => .error "expected JSON string"

/-- Whether a byte ends a number or a word. -/
def endsScalar (byte : UInt8) : Bool :=
  byte = ascii ',' || byte = ascii ']' || byte = ascii '}' || isSpaceByte byte

/-- What follows a value in a container: a comma or its end. -/
inductive Separator where
  | comma
  | close
  deriving DecidableEq, Repr

def parseSeparator (close : UInt8) (error : String) (text : Text) : Except String (Separator × Text) :=
  match skipJsonWhitespace text with
  | ch :: text =>
    if ch = ascii ',' then .ok (.comma, text) else if ch = close then .ok (.close, text) else .error error
  | [] => .error error

def parseColon (error : String) (text : Text) : Except String Text :=
  match skipJsonWhitespace text with
  | ch :: text => if ch = ascii ':' then .ok text else .error error
  | [] => .error error

/-- The rest of a container that is empty. -/
def parseEmpty (close : UInt8) (text : Text) : Option Text :=
  match skipJsonWhitespace text with
  | ch :: text => if ch = close then some text else none
  | [] => none

/-! Values that are skipped.  The fuel bounds the calls that are nested and the rounds of the loops. -/

mutual
def skipJsonValue : ℕ → Text → Except String Text
  | 0, _ => .error "out of fuel"
  | fuel + 1, text =>
    match skipJsonWhitespace text with
    | [] => .error "missing JSON value"
    | ch :: text =>
      if ch = ascii '"' then (parseJsonString (ch :: text)).map Prod.snd
      else if ch = ascii '[' then
        match parseEmpty (ascii ']') text with
        | some text => .ok text
        | none => skipElements fuel (skipJsonWhitespace text)
      else if ch = ascii '{' then
        match parseEmpty (ascii '}') text with
        | some text => .ok text
        | none => skipMembers fuel (skipJsonWhitespace text)
      else if endsScalar ch then .error "invalid JSON value"
      else .ok (text.dropWhile fun byte => !endsScalar byte)

/-- The loop of `skip_json_array`. -/
def skipElements : ℕ → Text → Except String Text
  | 0, _ => .error "out of fuel"
  | fuel + 1, text =>
    if text = [] then .error "unterminated JSON array"
    else do
      let text ← skipJsonValue fuel text
      match ← parseSeparator (ascii ']') "expected ',' or ']' in JSON array" text with
      | (.comma, text) => skipElements fuel text
      | (.close, text) => return text

/-- The loop of `skip_json_object`. -/
def skipMembers : ℕ → Text → Except String Text
  | 0, _ => .error "out of fuel"
  | fuel + 1, text =>
    if text = [] then .error "unterminated JSON object"
    else do
      let (_, text) ← parseJsonString text
      let text ← parseColon "expected ':' in JSON object" text
      let text ← skipJsonValue fuel text
      match ← parseSeparator (ascii '}') "expected ',' or '\x7d' in JSON object" text with
      | (.comma, text) => skipMembers fuel text
      | (.close, text) => return text
end

/-! ## Arrays of strings -/

/-- The start of an array. -/
def parseOpen (error : String) (text : Text) : Except String Text :=
  match skipJsonWhitespace text with
  | ch :: text => if ch = ascii '[' then .ok text else .error error
  | [] => .error error

/-- The loops of `parse_json_string_array` and `parse_json_string_matrix`. -/
def parseItems {α : Type} (parseItem : Text → Except String (α × Text)) (unterminated separator : String) :
    ℕ → List α → Text → Except String (List α × Text)
  | 0, _, _ => .error "out of fuel"
  | fuel + 1, result, text =>
    if text = [] then .error unterminated
    else do
      let (item, text) ← parseItem text
      match ← parseSeparator (ascii ']') separator text with
      | (.comma, text) => parseItems parseItem unterminated separator fuel (result ++ [item]) text
      | (.close, text) => return (result ++ [item], text)

def parseJsonStringArray (result : List Text) (text : Text) : Except String (List Text × Text) := do
  let text ← parseOpen "actions must be a JSON array" text
  match parseEmpty (ascii ']') text with
  | some text => return (result, text)
  | none =>
    parseItems parseJsonString "unterminated actions array" "expected ',' or ']' in actions array"
      (text.length + 1) result (skipJsonWhitespace text)

def parseJsonStringMatrix (result : List (List Text)) (text : Text) :
    Except String (List (List Text) × Text) := do
  let text ← parseOpen "action_chains must be a JSON array" text
  match parseEmpty (ascii ']') text with
  | some text => return (result, text)
  | none =>
    parseItems (parseJsonStringArray []) "unterminated action_chains array"
      "expected ',' or ']' in action_chains array" (text.length + 1) result (skipJsonWhitespace text)

/-! ## The response -/

structure ResponseFields where
  status : Option Text
  actions : Option (List Text)
  actionChains : Option (List (List Text))
  deriving DecidableEq, Repr

/-- The value of a member of the response. -/
def parseField (fields : ResponseFields) (key text : Text) : Except String (ResponseFields × Text) :=
  if key = asciiText "status" then do
    let (status, text) ← parseJsonString text
    return ({ fields with status := some status }, text)
  else if key = asciiText "actions" then do
    let (actions, text) ← parseJsonStringArray (fields.actions.getD []) text
    return ({ fields with actions := some actions }, text)
  else if key = asciiText "action_chains" then do
    let (actionChains, text) ← parseJsonStringMatrix (fields.actionChains.getD []) text
    return ({ fields with actionChains := some actionChains }, text)
  else do
    let text ← skipJsonValue (2 * text.length + 2) text
    return (fields, text)

/-- The loop over the members. -/
def parseFields : ℕ → ResponseFields → Text → Except String (ResponseFields × Text)
  | 0, _, _ => .error "out of fuel"
  | fuel + 1, fields, text =>
    if text = [] then .error "unterminated response object"
    else
      match parseEmpty (ascii '}') text with
      | some text => .ok (fields, text)
      | none => do
        let (key, text) ← parseJsonString text
        let text ← parseColon "expected ':' after response field" text
        let (fields, text) ← parseField fields key text
        match ← parseSeparator (ascii '}') "expected ',' or '\x7d' in response object" text with
        | (.comma, text) => parseFields fuel fields text
        | (.close, text) => return (fields, text)

/-- The status and the action chains of a valid response. -/
structure ResponseBody where
  status : Text
  actionChains : List (List Text)
  deriving DecidableEq, Repr

def parseResponseBody (body : Text) : Except String ResponseBody :=
  match skipJsonWhitespace body with
  | ch :: text =>
    if ch ≠ ascii '{' then .error "response is not a JSON object"
    else do
      let (fields, text) ← parseFields (text.length + 1) ⟨none, none, none⟩ text
      match fields.status, fields.actions, fields.actionChains with
      | none, _, _ | _, none, none => .error "response is missing status and action payload"
      | some status, actions, actionChains =>
        if skipJsonWhitespace text ≠ [] then .error "response contains trailing content"
        else return ⟨status, actionChains.getD [actions.getD []]⟩
  | [] => .error "response is not a JSON object"

end CutPlan.Search
