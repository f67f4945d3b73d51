import CutPlan.Search.ScoreProtocol
import CutPlan.Search.ScorerJsonLanguage

/-! # The kinds of messages

Which lines are score requests and shutdown messages, and which errors carry the id of the request.
-/

namespace CutPlan.Search

open CutPlan.Lib CutPlan.Lib.Json

/-! ## What the protocol asks for -/

def idFields : List String := ["request_id", "problem_id", "task_hash"]

structure IsScoreRequest (root : JsonObject) (request : ScoreRequest) : Prop where
  type : findField root "type" = some (.string (asciiText "score_request"))
  version : findField root "protocol_version" = some (.number 1)
  storedVersion : request.protocolVersion = 1
  requestId : findField root "request_id" = some (.string request.requestId) ∧ request.requestId ≠ []
  problemId : findField root "problem_id" = some (.string request.problemId) ∧ request.problemId ≠ []
  taskHash : findField root "task_hash" = some (.string request.taskHash) ∧ request.taskHash ≠ []
  actions : findField root "actions" = some (.array (request.actions.map .string))

structure IsShutdown (root : JsonObject) : Prop where
  type : findField root "type" = some (.string (asciiText "shutdown"))
  version : ∀ value, findField root "protocol_version" = some value → value = .number 1
  ids : ∀ key ∈ idFields, ∀ value, findField root key = some value → ∃ text, value = .string text

/-- A line that is an object. -/
def IsObject (line : Text) (root : JsonObject) : Prop :=
  TextDenotes JsonParser.doubleOf JsonParser.nestingLimit line (.object root)

/-! ## Fields -/

/-- The string of a field. -/
def fieldString (root : JsonObject) (key : String) : Option Text :=
  match findField root key with
  | some (.string value) => some value
  | _ => none

theorem fieldString_eq_some {root : JsonObject} {key : String} {value : Text} :
    fieldString root key = some value ↔ findField root key = some (.string value) := by
  rw [fieldString]
  split
  case h_1 found => simp [found]
  case h_2 noString =>
    simp only [reduceCtorEq, false_iff]
    exact noString value

theorem stringValue_eq_ok {key : String} {value : JsonValue} {text : Text} :
    stringValue key value = .ok text ↔ value = .string text := by
  cases value <;> simp [stringValue]

theorem isInt_one : IsInt 1 := by
  rw [IsInt]
  norm_num

theorem intValue_eq_ok_one {key : String} {value : JsonValue} :
    intValue key value = .ok 1 ↔ value = .number 1 := by
  cases value with
  | number value =>
    rw [intValue]
    split
    case isTrue isInt =>
      simp only [Except.ok.injEq, Datum.number.injEq]
      constructor
      · intro isOne
        rw [← isInt.1, isOne]
        norm_num
      · rintro rfl
        norm_num
    case isFalse notInt =>
      simp only [reduceCtorEq, Datum.number.injEq, false_iff]
      rintro rfl
      exact notInt isInt_one
  | null | bool _ | string _ | array _ | object _ => simp [intValue]

theorem readRequired_eq_ok {α : Type} {read : String → JsonValue → Except Text α} {root : JsonObject} {key : String}
    {result : α} : readRequired read root key = .ok result ↔ ∃ value, findField root key = some value ∧
      read key value = .ok result := by
  rw [readRequired]
  cases found : findField root key <;> simp

theorem readNonempty_eq_ok {root : JsonObject} {key : String} {text : Text} :
    readNonempty root key = .ok text ↔ findField root key = some (.string text) ∧ text ≠ [] := by
  rw [readNonempty]
  cases reads : readRequired stringValue root key with
  | error error =>
    simp only [reduceCtorEq, false_iff]
    intro isString
    have readsString := readRequired_eq_ok.mpr ⟨_, isString.1, stringValue_eq_ok.mpr rfl⟩
    rw [reads] at readsString
    cases readsString
  | ok value =>
    obtain ⟨found, isFound, isString⟩ := readRequired_eq_ok.mp reads
    rw [stringValue_eq_ok] at isString
    subst isString
    rw [isFound]
    simp only
    split
    case isTrue isEmpty => simp [isEmpty]
    case isFalse notEmpty =>
      simp only [Except.ok.injEq, Option.some_inj, Datum.string.injEq]
      constructor
      · rintro rfl
        exact ⟨rfl, notEmpty⟩
      · exact fun same => same.1

namespace ParsedMessage

variable {parsed : ParsedMessage} {root : JsonObject} {key : String} {store : ScoreRequest → Text → ScoreRequest}

theorem readField_cases : (findField root key = none ∧ parsed.readField root key store = parsed) ∨
    (∃ value, findField root key = some (.string value) ∧
      parsed.readField root key store = { parsed with request := store parsed.request value }) ∨
    ∃ value, findField root key = some value ∧ (∀ text, value ≠ .string text) ∧
      ∃ error, error ≠ [] ∧ parsed.readField root key store = { parsed with error } := by
  rw [readField, readOptional]
  cases found : findField root key with
  | none => exact .inl ⟨rfl, rfl⟩
  | some value =>
    cases value with
    | string value => exact .inr (.inl ⟨value, rfl, rfl⟩)
    | null | bool _ | number _ | array _ | object _ =>
      refine .inr (.inr ⟨_, rfl, ?_, _, by simp [asciiText], rfl⟩)
      intro text isString
      cases isString

@[simp] theorem readField_kind : (parsed.readField root key store).kind = parsed.kind := by
  obtain ⟨_, same⟩ | ⟨_, _, same⟩ | ⟨_, _, _, _, _, same⟩ :=
    @readField_cases parsed root key store <;> rw [same]

theorem readField_request : (parsed.readField root key store).request =
    ((fieldString root key).map (store parsed.request)).getD parsed.request := by
  obtain ⟨missing, same⟩ | ⟨value, isString, same⟩ | ⟨value, found, noString, error, _, same⟩ :=
    @readField_cases parsed root key store
  · rw [same, fieldString, missing]
    rfl
  · rw [same, fieldString_eq_some.mpr isString]
    rfl
  · have noFieldString : fieldString root key = none := by
      rw [Option.eq_none_iff_forall_ne_some]
      intro text isString
      rw [fieldString_eq_some, found, Option.some_inj] at isString
      exact noString text isString
    rw [same, noFieldString]
    rfl

theorem readField_error : (parsed.readField root key store).error = [] ↔
    parsed.error = [] ∧ ∀ value, findField root key = some value → ∃ text, value = .string text := by
  obtain ⟨missing, same⟩ | ⟨value, isString, same⟩ | ⟨value, found, noString, error, isError, same⟩ :=
    @readField_cases parsed root key store
  · simp [same, missing]
  · simp [same, isString]
  · simp only [same, isError, found, Option.some_inj, forall_eq', false_iff, not_and, not_exists]
    exact fun _ => noString

end ParsedMessage

/-- Every message starts with the ids that are strings. -/
def requestOfIds (root : JsonObject) : ScoreRequest where
  requestId := (fieldString root "request_id").getD []
  problemId := (fieldString root "problem_id").getD []
  taskHash := (fieldString root "task_hash").getD []

@[simp] theorem readIds_kind (root : JsonObject) : (readIds root).kind = .invalid := by
  simp [readIds]

theorem readIds_request (root : JsonObject) : (readIds root).request = requestOfIds root := by
  rw [readIds, requestOfIds]
  simp only [ParsedMessage.readField_request]
  cases fieldString root "request_id" <;> cases fieldString root "problem_id" <;>
    cases fieldString root "task_hash" <;> rfl

theorem readIds_error (root : JsonObject) : (readIds root).error = [] ↔
    ∀ key ∈ idFields, ∀ value, findField root key = some value → ∃ text, value = .string text := by
  simp only [readIds, ParsedMessage.readField_error, idFields, List.forall_mem_cons, List.not_mem_nil,
    false_imp_iff, implies_true, and_true, true_and, and_assoc]

/-! ## Actions -/

theorem parseActions_strings (parsed : ParsedMessage) (actions : List Text) :
    parseActions parsed (actions.map .string) =
      { parsed with
        kind := .scoreRequest
        request := { parsed.request with actions := parsed.request.actions ++ actions } } := by
  induction actions generalizing parsed with
  | nil => simp [parseActions]
  | cons action actions inductionHypothesis => simp [parseActions, inductionHypothesis]

/-- Either all actions are strings or the message is invalid. -/
theorem parseActions_cases (parsed : ParsedMessage) (actions : List JsonValue) :
    (∃ texts : List Text, actions = texts.map .string) ∨
      ((parseActions parsed actions).kind = parsed.kind ∧
        (parseActions parsed actions).request.requestId = parsed.request.requestId) := by
  induction actions generalizing parsed with
  | nil => exact .inl ⟨[], rfl⟩
  | cons action actions inductionHypothesis =>
    cases action with
    | string action =>
      obtain ⟨texts, rfl⟩ | unchanged := inductionHypothesis
        { parsed with request := { parsed.request with actions := parsed.request.actions ++ [action] } }
      · exact .inl ⟨action :: texts, rfl⟩
      · exact .inr unchanged
    | null | bool _ | number _ | array _ | object _ => exact .inr ⟨rfl, rfl⟩

/-! ## Messages -/

theorem parseShutdown_kind {root : JsonObject} {parsed : ParsedMessage} (invalid : parsed.kind = .invalid) :
    (parseShutdown root parsed).kind = .shutdown ↔
      ∀ value, findField root "protocol_version" = some value → value = .number 1 := by
  rw [parseShutdown, readOptional]
  cases found : findField root "protocol_version" with
  | none => simp [protocolVersion]
  | some value =>
    simp only [Option.some_inj, forall_eq']
    rw [← @intValue_eq_ok_one "protocol_version"]
    cases reads : intValue "protocol_version" value with
    | error error => simp [Except.map, invalid]
    | ok version =>
      simp only [Except.map, Option.getD_some, protocolVersion, Except.ok.injEq]
      by_cases isOne : version = 1
      case pos => simp [isOne]
      case neg => simp [isOne, invalid]

theorem parseShutdown_invalid {root : JsonObject} {parsed : ParsedMessage} (invalid : parsed.kind = .invalid) :
    (parseShutdown root parsed).kind ≠ .scoreRequest ∧
      (parseShutdown root parsed).request.requestId = parsed.request.requestId := by
  rw [parseShutdown]
  split
  case h_1 => simp [invalid]
  case h_2 => split <;> simp [invalid]

/-- A score request is read field by field. -/
theorem parseScoreRequest_ok {root : JsonObject} {request : ScoreRequest} (isRequest : IsScoreRequest root request)
    (parsed : ParsedMessage) (noActions : parsed.request.actions = []) :
    parseScoreRequest root parsed = { parsed with kind := .scoreRequest, request } := by
  have version : readRequired intValue root "protocol_version" = .ok 1 :=
    readRequired_eq_ok.mpr ⟨_, isRequest.version, intValue_eq_ok_one.mpr rfl⟩
  have storedVersion := isRequest.storedVersion
  rw [parseScoreRequest]
  simp only [version, readNonempty_eq_ok.mpr isRequest.requestId, readNonempty_eq_ok.mpr isRequest.problemId,
    readNonempty_eq_ok.mpr isRequest.taskHash, isRequest.actions, parseActions_strings]
  rw [if_neg (by decide), noActions, List.nil_append, ← storedVersion]

/-- What is no score request is invalid, and keeps the id of the request. -/
theorem parseScoreRequest_cases {root : JsonObject} {parsed : ParsedMessage}
    (isType : findField root "type" = some (.string (asciiText "score_request")))
    (sameId : ∀ id, findField root "request_id" = some (.string id) → parsed.request.requestId = id)
    (noActions : parsed.request.actions = []) :
    (∃ request, IsScoreRequest root request ∧
      parseScoreRequest root parsed = { parsed with kind := .scoreRequest, request }) ∨
    ((parseScoreRequest root parsed).kind = parsed.kind ∧
      (parseScoreRequest root parsed).request.requestId = parsed.request.requestId) := by
  cases readsVersion : readRequired intValue root "protocol_version" with
  | error error => exact .inr (by simp [parseScoreRequest, readsVersion])
  | ok version =>
    by_cases isOne : version = protocolVersion
    case neg => exact .inr (by simp [parseScoreRequest, readsVersion, isOne])
    case pos =>
      subst isOne
      cases readsRequest : readNonempty root "request_id" with
      | error error => exact .inr (by simp [parseScoreRequest, readsVersion, readsRequest])
      | ok requestId =>
        have isRequestId := readNonempty_eq_ok.mp readsRequest
        have keepsId := sameId requestId isRequestId.1
        cases readsProblem : readNonempty root "problem_id" with
        | error error => exact .inr (by simp [parseScoreRequest, readsVersion, readsRequest, readsProblem, keepsId])
        | ok problemId =>
          cases readsHash : readNonempty root "task_hash" with
          | error error =>
            exact .inr (by simp [parseScoreRequest, readsVersion, readsRequest, readsProblem, readsHash, keepsId])
          | ok taskHash =>
            cases found : findField root "actions" with
            | none =>
              exact .inr (by
                simp [parseScoreRequest, readsVersion, readsRequest, readsProblem, readsHash, found, keepsId])
            | some actions =>
              cases actions with
              | null | bool _ | number _ | string _ | object _ =>
                exact .inr (by
                  simp [parseScoreRequest, readsVersion, readsRequest, readsProblem, readsHash, found, keepsId])
              | array actions =>
                obtain ⟨texts, rfl⟩ | unchanged := parseActions_cases
                  { parsed with
                    request := { parsed.request with protocolVersion, requestId, problemId, taskHash } } actions
                · obtain ⟨value, isValue, isInt⟩ := readRequired_eq_ok.mp readsVersion
                  have isRequest : IsScoreRequest root { protocolVersion, requestId, problemId, taskHash, actions := texts } :=
                    { type := isType
                      version := by rw [isValue, intValue_eq_ok_one.mp isInt]
                      storedVersion := rfl
                      requestId := isRequestId
                      problemId := readNonempty_eq_ok.mp readsProblem
                      taskHash := readNonempty_eq_ok.mp readsHash
                      actions := found }
                  exact .inl ⟨_, isRequest, parseScoreRequest_ok isRequest parsed noActions⟩
                · refine .inr ?_
                  rw [parseScoreRequest]
                  simp only [readsVersion, readsRequest, readsProblem, readsHash, found]
                  rw [if_neg (by simp)]
                  exact ⟨unchanged.1, unchanged.2.trans keepsId.symm⟩

/-- An object whose type can be read. -/
structure Classified (root : JsonObject) (parsed : ParsedMessage) : Prop where
  scoreRequest : ∀ request, (parsed.kind = .scoreRequest ∧ parsed.request = request) ↔ IsScoreRequest root request
  shutdown : parsed.kind = .shutdown ↔ IsShutdown root
  carriesId : ∀ id, findField root "request_id" = some (.string id) → parsed.kind = .invalid → parsed.request.requestId = id

theorem requestOfIds_requestId {root : JsonObject} {id : Text}
    (isId : findField root "request_id" = some (.string id)) : (requestOfIds root).requestId = id := by
  rw [requestOfIds, fieldString_eq_some.mpr isId]
  rfl

/-- A message of another type is neither. -/
theorem classified_other {root : JsonObject} {parsed : ParsedMessage} (invalid : parsed.kind = .invalid)
    (noRequest : ∀ request, ¬ IsScoreRequest root request) (noShutdown : ¬ IsShutdown root)
    (sameRequest : parsed.request = requestOfIds root) : Classified root parsed where
  scoreRequest request := by simp [invalid, noRequest request]
  shutdown := by simp [invalid, noShutdown]
  carriesId id isId _ := by rw [sameRequest, requestOfIds_requestId isId]

theorem IsScoreRequest.ids {root : JsonObject} {request : ScoreRequest} (isRequest : IsScoreRequest root request) :
    ∀ key ∈ idFields, ∀ value, findField root key = some value → ∃ text, value = .string text := by
  simp only [idFields, List.forall_mem_cons, List.not_mem_nil, false_imp_iff, implies_true, and_true,
    isRequest.requestId.1, isRequest.problemId.1, isRequest.taskHash.1, Option.some_inj, forall_eq', Datum.string.injEq,
    exists_eq', and_self]

theorem IsScoreRequest.unique {root : JsonObject} {first second : ScoreRequest} (isFirst : IsScoreRequest root first)
    (isSecond : IsScoreRequest root second) : first = second := by
  obtain ⟨firstVersion, firstRequest, firstProblem, firstHash, firstActions⟩ := first
  obtain ⟨secondVersion, secondRequest, secondProblem, secondHash, secondActions⟩ := second
  have sameVersion : firstVersion = secondVersion := isFirst.storedVersion.trans isSecond.storedVersion.symm
  have sameRequest := isFirst.requestId.1.symm.trans isSecond.requestId.1
  have sameProblem := isFirst.problemId.1.symm.trans isSecond.problemId.1
  have sameHash := isFirst.taskHash.1.symm.trans isSecond.taskHash.1
  have sameActions := isFirst.actions.symm.trans isSecond.actions
  simp only [Option.some_inj, Datum.string.injEq, Datum.array.injEq] at sameRequest sameProblem sameHash sameActions
  have injective : Function.Injective (Datum.string : Text → JsonValue) := fun _ _ => Datum.string.inj
  rw [sameVersion, sameRequest, sameProblem, sameHash, List.map_injective_iff.mpr injective sameActions]

theorem parseRoot_classified {root : JsonObject} {type : Text} (isType : findField root "type" = some (.string type)) :
    Classified root (parseRoot root) := by
  have reads : readRequired stringValue root "type" = .ok type :=
    readRequired_eq_ok.mpr ⟨_, isType, stringValue_eq_ok.mpr rfl⟩
  have sameType : ∀ name, findField root "type" = some (.string name) → type = name := by
    intro name isName
    rw [isType, Option.some_inj, Datum.string.injEq] at isName
    exact isName
  rw [parseRoot]
  simp only [reads]
  split
  case isTrue isError =>
    have notIds := (readIds_error root).not.mp isError
    exact classified_other (readIds_kind root) (fun request isRequest => notIds isRequest.ids)
      (fun isShutdown => notIds isShutdown.ids) (readIds_request root)
  case isFalse noError =>
    have ids := (readIds_error root).mp (not_not.mp noError)
    split
    case isTrue isShutdownType =>
      subst isShutdownType
      have unchanged := @parseShutdown_invalid root _ (readIds_kind root)
      refine ⟨fun request => ?_, ?_, fun id isId _ => ?_⟩
      · simp only [unchanged.1, false_and, false_iff]
        exact fun isRequest => absurd (sameType _ isRequest.type) (by decide)
      · rw [parseShutdown_kind (readIds_kind root)]
        exact ⟨fun version => ⟨isType, version, ids⟩, fun isShutdown => isShutdown.version⟩
      · rw [unchanged.2, readIds_request, requestOfIds_requestId isId]
    case isFalse notShutdown =>
      have noShutdown : ¬ IsShutdown root := fun isShutdown => notShutdown (sameType _ isShutdown.type)
      split
      case isTrue notRequest =>
        exact classified_other (readIds_kind root) (fun request isRequest => notRequest (sameType _ isRequest.type))
          noShutdown (readIds_request root)
      case isFalse isRequestType =>
        rw [not_not] at isRequestType
        subst isRequestType
        have sameId : ∀ id, findField root "request_id" = some (.string id) →
            (readIds root).request.requestId = id := by
          intro id isId
          rw [readIds_request, requestOfIds_requestId isId]
        have noActions : (readIds root).request.actions = [] := by rw [readIds_request, requestOfIds]
        obtain ⟨read, isRead, same⟩ | unchanged := parseScoreRequest_cases isType sameId noActions
        · rw [same]
          refine ⟨fun request => ?_, by simp [noShutdown], fun id _ invalid => nomatch invalid⟩
          simp only [true_and]
          constructor
          · rintro rfl
            exact isRead
          · exact isRead.unique
        · refine ⟨fun request => ?_, ?_, fun id isId _ => ?_⟩
          · simp only [unchanged.1, readIds_kind, reduceCtorEq, false_and, false_iff]
            intro isRequest
            have kind := unchanged.1
            rw [parseScoreRequest_ok isRequest _ noActions, readIds_kind] at kind
            cases kind
          · simp [unchanged.1, noShutdown]
          · rw [unchanged.2, sameId id isId]

/-- Without a type the ids are not read. -/
theorem parseRoot_untyped {root : JsonObject} (noType : ∀ type, findField root "type" ≠ some (.string type)) :
    (parseRoot root).kind = .invalid ∧ (parseRoot root).request = {} := by
  rw [parseRoot]
  split
  case h_1 => exact ⟨rfl, rfl⟩
  case h_2 type reads =>
    obtain ⟨value, isValue, isString⟩ := readRequired_eq_ok.mp reads
    rw [stringValue_eq_ok.mp isString] at isValue
    exact absurd isValue (noType type)

/-! ## Lines -/

/-- The message of a line is of the right kind, and an invalid one carries the id of the request. -/
structure LineClassified (line : Text) : Prop where
  scoreRequest : ∀ request, ((parseMessage line).kind = .scoreRequest ∧ (parseMessage line).request = request) ↔
    ∃ root, IsObject line root ∧ IsScoreRequest root request
  shutdown : (parseMessage line).kind = .shutdown ↔ ∃ root, IsObject line root ∧ IsShutdown root
  carriesId : ∀ root id, IsObject line root → findField root "request_id" = some (.string id) →
    (parseMessage line).kind = .invalid → (parseMessage line).request.requestId = id

theorem parseMessage_object {line : Text} {root : JsonObject} (isObject : IsObject line root) :
    parseMessage line = parseRoot root := by
  rw [parseMessage, JsonParser.denotes_parse isObject]

theorem IsObject.unique {line : Text} {first second : JsonObject} (isFirst : IsObject line first)
    (isSecond : IsObject line second) : first = second := by
  have parses := JsonParser.denotes_parse isFirst
  rw [JsonParser.denotes_parse isSecond] at parses
  cases parses
  rfl

theorem parseMessage_noObject {line : Text} (noObject : ∀ root, ¬ IsObject line root) :
    (parseMessage line).kind = .invalid := by
  rw [parseMessage]
  split
  case h_1 => rfl
  case h_2 root parses => exact absurd (JsonParser.parse_denotes parses) (noObject root)
  case h_3 => rfl

theorem exists_object {line : Text} {root : JsonObject} (isObject : IsObject line root) (property : JsonObject → Prop) :
    (∃ other, IsObject line other ∧ property other) ↔ property root := by
  constructor
  · rintro ⟨other, isOther, holds⟩
    rwa [isObject.unique isOther]
  · exact fun holds => ⟨root, isObject, holds⟩

/-- Lines are classified, unless an object has an id for its request but no string for its type. -/
theorem parseMessage_classified_iff (line : Text) : LineClassified line ↔
    ¬ ∃ root id, IsObject line root ∧ findField root "request_id" = some (.string id) ∧ id ≠ [] ∧
      ∀ type, findField root "type" ≠ some (.string type) := by
  by_cases object : ∃ root, IsObject line root
  case neg =>
    rw [not_exists] at object
    have invalid := parseMessage_noObject object
    constructor
    · rintro _ ⟨root, _, isObject, _⟩
      exact object root isObject
    · refine fun _ => ⟨fun request => ?_, ?_, fun root id isObject => absurd isObject (object root)⟩
      · simp [invalid, object]
      · simp [invalid, object]
  case pos =>
    obtain ⟨root, isObject⟩ := object
    constructor
    · rintro classified ⟨other, id, isOther, isId, nonempty, noType⟩
      obtain ⟨kind, request⟩ := parseRoot_untyped noType
      have carries := classified.carriesId other id isOther isId
      rw [parseMessage_object isOther, request] at carries
      exact nonempty (carries kind).symm
    · intro typed
      by_cases hasType : ∃ type, findField root "type" = some (.string type)
      case pos =>
        obtain ⟨type, isType⟩ := hasType
        obtain ⟨scoreRequest, shutdown, carriesId⟩ := parseRoot_classified isType
        refine ⟨fun request => ?_, ?_, fun other id isOther isId invalid => ?_⟩
        · rw [exists_object isObject, parseMessage_object isObject, scoreRequest]
        · rw [exists_object isObject, parseMessage_object isObject, shutdown]
        · rw [← isObject.unique isOther] at isId
          rw [parseMessage_object isObject] at invalid ⊢
          exact carriesId id isId invalid
      case neg =>
        rw [not_exists] at hasType
        obtain ⟨kind, request⟩ := parseRoot_untyped hasType
        refine ⟨fun other => ?_, ?_, fun other id isOther isId _ => ?_⟩
        · rw [exists_object isObject, parseMessage_object isObject]
          simp only [kind, reduceCtorEq, false_and, false_iff]
          exact fun isRequest => hasType _ isRequest.type
        · rw [exists_object isObject, parseMessage_object isObject]
          simp only [kind, reduceCtorEq, false_iff]
          exact fun isShutdown => hasType _ isShutdown.type
        · rw [← isObject.unique isOther] at isId
          rw [parseMessage_object isObject, request]
          by_contra nonempty
          exact typed ⟨root, id, isObject, isId, fun isEmpty => nonempty isEmpty.symm, hasType⟩

/-- The object has an id for its request and nothing else. -/
def onlyId (id : Text) : Except Text JsonValue → Bool
  | .ok (.object [(key, .string value)]) => key = asciiText "request_id" ∧ value = id
  | _ => false

theorem onlyId_iff {id : Text} {parsed : Except Text JsonValue} :
    onlyId id parsed = true ↔ parsed = .ok (.object [(asciiText "request_id", .string id)]) := by
  rw [onlyId.eq_def]
  split
  case h_1 => simp
  case h_2 other =>
    simp only [Bool.false_eq_true, false_iff]
    exact fun same => other _ _ same

/-- The reply to this object does not carry its id. -/
theorem untyped_loses_id : ¬ LineClassified (asciiText "\x7b\"request_id\":\"r\"\x7d") := by
  intro classified
  have parses := onlyId_iff.mp
    (show onlyId (asciiText "r") (JsonParser.parse (asciiText "\x7b\"request_id\":\"r\"\x7d")) by decide +kernel)
  have carries := classified.carriesId _ (asciiText "r") (JsonParser.parse_denotes parses) (by rfl)
  rw [parseMessage, parses] at carries
  exact absurd (carries rfl) (by decide)

end CutPlan.Search
