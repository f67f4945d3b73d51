import CutPlan.Search.ScoreResponse
import CutPlan.Search.ScorerJsonLanguage

/-! # Messages of the scorer can be read

The parser of the scorer reads every message on one line, with the values that were serialized.
-/

namespace CutPlan.Search

open CutPlan.Lib CutPlan.Lib.Json CutPlan.Search.JsonParser

/-- A text on one line that denotes a value. -/
structure Writes (levels : ℕ) (text : Text) (value : JsonValue) : Prop where
  denotes : Denotes doubleOf levels text value
  oneLine : 0x0A ∉ text

/-! ## Values -/

theorem escapeChar_eq : ∀ ch, escapeChar ch = (escapePiece ch).text := forall_byte (by decide +kernel)

theorem appendJsonString_eq (value : Text) : appendJsonString value = quoted (encode value) := by
  have sameText : escapeChar = fun ch => (escapePiece ch).text := funext escapeChar_eq
  rw [appendJsonString, quoted, encode, List.flatMap_map, sameText]

theorem escapeChar_oneLine : ∀ ch, 0x0A ∉ escapeChar ch := forall_byte (by decide +kernel)

theorem writes_string (levels : ℕ) (value : Text) : Writes levels (appendJsonString value) (.string value) where
  denotes := by
    have denotes := @Denotes.string _ doubleOf levels _ (paired_encode value)
    rwa [decode_encode, ← appendJsonString_eq] at denotes
  oneLine := by
    intro isNewline
    simp only [appendJsonString, List.mem_append, List.mem_cons, List.not_mem_nil, or_false, List.mem_flatMap] at isNewline
    obtain (isQuote | ⟨ch, _, inEscape⟩) | isQuote := isNewline
    · exact absurd isQuote (by decide)
    · exact escapeChar_oneLine ch inEscape
    · exact absurd isQuote (by decide)

theorem writes_null (levels : ℕ) : Writes levels (asciiText "null") .null := ⟨.null, by decide⟩

theorem writes_bool (levels : ℕ) (value : Bool) :
    Writes levels (asciiText (if value then "true" else "false")) (.bool value) :=
  ⟨.bool value, by cases value <;> decide⟩

theorem numberText_oneLine (number : NumberText) : 0x0A ∉ number.text := by
  have digits : (0x0A : UInt8) ∉ asciiText "0123456789" := by decide
  have marks : ∀ mark ∈ ["e", "E", "e+", "E+", "e-", "E-"].map asciiText, (0x0A : UInt8) ∉ mark := by decide
  obtain ⟨negative, integer, fraction, exponent⟩ := number
  have noInteger : 0x0A ∉ integer.1 := fun isNewline => digits (integer.2.1.2 _ isNewline)
  have noSign : 0x0A ∉ signText negative := by cases negative <;> decide
  have noFraction : 0x0A ∉ fractionText fraction := by
    cases fraction with
    | none => exact List.not_mem_nil
    | some fraction =>
      rw [fractionText, List.mem_cons, not_or]
      exact ⟨by decide, fun isNewline => digits (fraction.2.2 _ isNewline)⟩
  have noExponent : 0x0A ∉ exponentText exponent := by
    cases exponent with
    | none => exact List.not_mem_nil
    | some exponent =>
      rw [exponentText, List.mem_append, not_or]
      exact ⟨marks _ exponent.1.2, fun isNewline => digits (exponent.2.2.2 _ isNewline)⟩
  simp [NumberText.text_eq, noInteger, noSign, noFraction, noExponent]

theorem writes_number (levels : ℕ) {number : NumberText} {double : ℚ} (inRange : doubleOf number = some double) :
    Writes levels number.text (.number double) :=
  ⟨.number inRange, numberText_oneLine number⟩

/-- An integer is read as the nearest double. -/
theorem writes_natural (levels : ℕ) {value : ℕ} {double : ℚ} (inRange : toDouble value = some double) :
    Writes levels (decimal value) (.number double) := by
  have isText : (intNumber value).text = decimal value := by
    rw [NumberText.text_eq]
    simp [intNumber, signText, fractionText, exponentText]
  have isMagnitude : (intNumber value).magnitude = value := by
    simp [NumberText.magnitude, NumberText.fractionDigits, NumberText.exponentValue, intNumber, decimalValue_decimal]
  rw [← isText]
  apply writes_number
  rw [doubleOf, isMagnitude, inRange]
  simp [intNumber, signed]

theorem writes_count (levels : ℕ) {value : ℕ} (small : value ≤ 2 ^ 53) :
    Writes levels (decimal value) (.number value) :=
  writes_natural levels (toDouble_natCast small)

theorem writes_optionalString (levels : ℕ) (hasValue : Bool) (value : Text) :
    Writes levels (appendOptionalString hasValue value) (if hasValue then .string value else .null) := by
  rw [appendOptionalString]
  cases hasValue with
  | true => exact writes_string levels value
  | false => exact writes_null levels

namespace Double

/-- A double that is finite, and zero or not smaller than all the doubles with all their digits. -/
def Normal : Double → Prop
  | .finite _ magnitude => NormalOrZero magnitude
  | _ => False

/-- The number that is read where a double is printed. -/
def reread : Double → ℚ
  | .finite negative magnitude => signed negative (roundSignificant 2 53 (roundSignificant 10 17 magnitude))
  | _ => 0

end Double

theorem NormalOrZero.nonnegative {magnitude : ℚ} (normal : NormalOrZero magnitude) : 0 ≤ magnitude := by
  cases normal with
  | inl isZero => exact isZero.ge
  | inr bounds => exact leastNormal_pos.le.trans bounds.1

theorem writes_double (levels : ℕ) {double : Double} (normal : double.Normal) :
    Writes levels double.print (.number double.reread) := by
  cases double with
  | infinite negative => cases normal
  | nan negative => cases normal
  | finite negative magnitude =>
    obtain ⟨number, isPositive, isText, isMagnitude⟩ :=
      exists_generalText (by decide : 0 < 17) (NormalOrZero.nonnegative normal)
    have isPrinted : (NumberText.mk negative number.integer number.fraction number.exponent).text =
        (Double.finite negative magnitude).print := by
      rw [Double.print, ← isText, NumberText.text_eq, NumberText.text_eq number, isPositive]
      rfl
    rw [← isPrinted]
    apply writes_number
    have sameMagnitude : (NumberText.mk negative number.integer number.fraction number.exponent).magnitude =
        roundSignificant 10 17 magnitude := isMagnitude
    rw [doubleOf, sameMagnitude, toDouble_of_normal (normalOrZero_printed normal)]
    rfl

theorem writes_optionalNumber (levels : ℕ) {hasValue : Bool} {double : Double}
    (normal : hasValue = true → double.isFinite = true → double.Normal) :
    Writes levels (appendOptionalNumber hasValue double)
      (if hasValue && double.isFinite then .number double.reread else .null) := by
  rw [appendOptionalNumber]
  split
  case isTrue isFinite =>
    rw [Bool.and_eq_true] at isFinite
    exact writes_double levels (normal isFinite.1 isFinite.2)
  case isFalse => exact writes_null levels

/-! ## Objects and arrays -/

/-- A member of an object that is written without whitespace. -/
structure Field where
  name : String
  text : Text
  value : JsonValue

def Field.written (field : Field) : Text := appendJsonString (asciiText field.name) ++ ascii ':' :: field.text

def Field.member (field : Field) : Text × JsonValue := (asciiText field.name, field.value)

def compactObject (fields : List Field) : Text :=
  ascii '{' :: commaSeparated (fields.map Field.written) ++ [ascii '}']

theorem commaSeparated_oneLine {texts : List Text} (oneLine : ∀ text ∈ texts, 0x0A ∉ text) :
    0x0A ∉ commaSeparated texts := by
  cases texts with
  | nil => exact List.not_mem_nil
  | cons first rest =>
    induction rest generalizing first with
    | nil =>
      rw [commaSeparated_singleton]
      exact oneLine first List.mem_cons_self
    | cons second rest inductionHypothesis =>
      rw [List.forall_mem_cons] at oneLine
      have noRest := inductionHypothesis second oneLine.2
      rw [commaSeparated_cons, List.mem_append, List.mem_cons, not_or, not_or]
      exact ⟨oneLine.1, by decide, noRest⟩

theorem writes_object {levels : ℕ} {first : Field} {fields : List Field}
    (writes : ∀ field ∈ first :: fields, Writes levels field.text field.value)
    (distinct : ((first :: fields).map fun field => asciiText field.name).Nodup) :
    Writes (levels + 1) (compactObject (first :: fields)) (.object ((first :: fields).map Field.member)) where
  denotes := by
    let member (field : Field) : Member × JsonValue :=
      (⟨noSpace, encode (asciiText field.name), noSpace, ⟨noSpace, field.text, noSpace⟩⟩, field.value)
    have denotes := @Denotes.object _ doubleOf levels (member first) (fields.map member) (by
        rw [← List.map_cons, List.forall_mem_map]
        exact fun field _ => paired_encode _) (by
        rw [← List.map_cons, List.forall_mem_map]
        exact fun field isField => (writes field isField).denotes) (by
        rw [← List.map_cons, List.map_map]
        simpa only [member, Function.comp_def, decode_encode] using distinct)
    rw [← List.map_cons, List.map_map, List.map_map] at denotes
    have sameText : (fun field => (member field).1.text) = Field.written := by
      funext field
      rw [Field.written, appendJsonString_eq]
      simp [member, Member.text, Padded.text, noSpace]
    have sameMember : Field.member = fun field => (asciiText field.name, field.value) := rfl
    simpa only [Function.comp_def, sameText, member, decode_encode, compactObject, sameMember] using denotes
  oneLine := by
    have fieldsOneLine : 0x0A ∉ commaSeparated ((first :: fields).map Field.written) := by
      apply commaSeparated_oneLine
      rw [List.forall_mem_map]
      intro field isField
      rw [Field.written, List.mem_append, List.mem_cons, not_or, not_or]
      exact ⟨(writes_string levels _).oneLine, by decide, (writes field isField).oneLine⟩
    rw [compactObject, List.cons_append, List.mem_cons, List.mem_append, List.mem_singleton, not_or, not_or]
    exact ⟨by decide, fieldsOneLine, by decide⟩

theorem writes_array {levels : ℕ} {β : Type} {itemText : β → Text} {itemValue : β → JsonValue} {items : List β}
    (writes : ∀ item ∈ items, Writes levels (itemText item) (itemValue item)) :
    Writes (levels + 1) (ascii '[' :: commaSeparated (items.map itemText) ++ [ascii ']'])
      (.array (items.map itemValue)) where
  denotes := by
    cases items with
    | nil => exact .emptyArray noSpace
    | cons first items =>
      let padded (item : β) : Padded × JsonValue := (⟨noSpace, itemText item, noSpace⟩, itemValue item)
      have denotes := @Denotes.array _ doubleOf levels (padded first) (items.map padded) (by
          rw [← List.map_cons, List.forall_mem_map]
          exact fun item isItem => (writes item isItem).denotes)
      rw [← List.map_cons, List.map_map, List.map_map] at denotes
      have sameText : (fun item => (padded item).1.text) = itemText := by
        funext item
        simp [padded, Padded.text, noSpace]
      simpa only [Function.comp_def, sameText, padded] using denotes
  oneLine := by
    have itemsOneLine : 0x0A ∉ commaSeparated (items.map itemText) := by
      apply commaSeparated_oneLine
      rw [List.forall_mem_map]
      exact fun item isItem => (writes item isItem).oneLine
    rw [List.cons_append, List.mem_cons, List.mem_append, List.mem_singleton, not_or, not_or]
    exact ⟨by decide, itemsOneLine, by decide⟩

/-! ## What the messages say -/

def optionalString (hasValue : Bool) (value : Text) : JsonValue := if hasValue then .string value else .null

def readyMembers (taskHash heuristicConfig : Text) (maxRequestBytes : ℕ) : JsonObject :=
  [(asciiText "type", .string (asciiText "ready")), (asciiText "protocol_version", .number 1),
    (asciiText "task_hash", .string taskHash), (asciiText "heuristic_config", .string heuristicConfig),
    (asciiText "max_request_bytes", .number maxRequestBytes)]

def shutdownAckMembers (requestId taskHash : Text) : JsonObject :=
  [(asciiText "type", .string (asciiText "shutdown_ack")), (asciiText "protocol_version", .number 1),
    (asciiText "request_id", .string requestId), (asciiText "task_hash", .string taskHash)]

def stateMembers (state : TrajectoryStateInfo) : JsonObject :=
  [(asciiText "state_index", .number state.stateIndex), (asciiText "state_id", .number state.stateId),
    (asciiText "h", if state.hasH && state.h.isFinite then .number state.h.reread else .null)]

def scoreResponseMembers (request : ScoreRequest) (loadedTaskHash : Text) (result : ActionChainEvaluationResult)
    (recycleRecommended : Bool) (recycleReason : Text) : JsonObject :=
  [(asciiText "type", .string (asciiText "score_response")), (asciiText "protocol_version", .number 1),
    (asciiText "request_id", .string request.requestId), (asciiText "problem_id", .string request.problemId),
    (asciiText "task_hash", .string loadedTaskHash), (asciiText "status", .string result.status),
    (asciiText "outcome", optionalString (result.outcome ≠ []) result.outcome),
    (asciiText "generated_action_count", .number result.generatedActionCount),
    (asciiText "applied_action_count", .number result.appliedActionCount),
    (asciiText "invalid_action_index", if result.hasInvalidAction then .number result.invalidActionIndex else .null),
    (asciiText "path_cost", .number result.pathCost.reread),
    (asciiText "registered_state_count", .number result.registeredStateCount),
    (asciiText "scorer_seconds", .number result.scorerSeconds.reread),
    (asciiText "recycle_recommended", .bool recycleRecommended),
    (asciiText "recycle_reason", optionalString recycleRecommended recycleReason),
    (asciiText "error", optionalString (result.errorMessage ≠ []) result.errorMessage),
    (asciiText "states", .array (result.states.map fun state => .object (stateMembers state)))]

/-- The line is read as an object. -/
def Readable (line : Text) (members : JsonObject) : Prop := parse line = .ok (.object members) ∧ 0x0A ∉ line

/-- Integers that a double can hold. -/
def Small (value : ℕ) : Prop := value ≤ 2 ^ 53

instance (value : ℕ) : Decidable (Small value) := inferInstanceAs (Decidable (value ≤ 2 ^ 53))

structure StateInRange (state : TrajectoryStateInfo) : Prop where
  stateIndex : Small state.stateIndex
  stateId : Small state.stateId
  h : state.hasH = true → state.h.isFinite = true → state.h.Normal

structure ResultInRange (result : ActionChainEvaluationResult) : Prop where
  generatedActionCount : Small result.generatedActionCount
  appliedActionCount : Small result.appliedActionCount
  invalidActionIndex : Small result.invalidActionIndex
  pathCost : result.pathCost.Normal
  registeredStateCount : Small result.registeredStateCount
  scorerSeconds : result.scorerSeconds.Normal
  states : ∀ state ∈ result.states, StateInRange state

/-! ## Reading them -/

theorem Writes.readable {levels : ℕ} {line : Text} {members : JsonObject} (writes : Writes levels line (.object members))
    (shallow : levels ≤ nestingLimit) : Readable line members := by
  refine ⟨denotes_parse ⟨⟨noSpace, line, noSpace⟩, ?_, writes.denotes.mono shallow⟩, writes.oneLine⟩
  simp [Padded.text, noSpace]

theorem writes_version (levels : ℕ) : Writes levels printedVersion (.number 1) := by
  have writes := writes_count levels (by decide : 1 ≤ 2 ^ 53)
  rwa [Nat.cast_one] at writes

/-- The ready message with the number that is read for its limit. -/
theorem serializeReady_reads (taskHash heuristicConfig : Text) {maxRequestBytes : ℕ} {read : ℚ}
    (inRange : toDouble maxRequestBytes = some read) :
    Readable (serializeReady taskHash heuristicConfig maxRequestBytes)
      [(asciiText "type", .string (asciiText "ready")), (asciiText "protocol_version", .number 1),
        (asciiText "task_hash", .string taskHash), (asciiText "heuristic_config", .string heuristicConfig),
        (asciiText "max_request_bytes", .number read)] := by
  have sameText : serializeReady taskHash heuristicConfig maxRequestBytes = compactObject
      [⟨"type", appendJsonString (asciiText "ready"), .string (asciiText "ready")⟩,
        ⟨"protocol_version", printedVersion, .number 1⟩,
        ⟨"task_hash", appendJsonString taskHash, .string taskHash⟩,
        ⟨"heuristic_config", appendJsonString heuristicConfig, .string heuristicConfig⟩,
        ⟨"max_request_bytes", decimal maxRequestBytes, .number read⟩] := by
    simp only [serializeReady, compactObject, List.map_cons, List.map_nil, commaSeparated_cons,
      commaSeparated_singleton, Field.written, List.append_assoc, List.cons_append]
    rfl
  rw [sameText]
  apply (@writes_object 0 _ _ _ (by dsimp only [List.map]; decide +kernel)).readable (by decide)
  simp only [List.forall_mem_cons, List.not_mem_nil, false_imp_iff, implies_true, and_true]
  exact ⟨writes_string _ _, writes_version _, writes_string _ _, writes_string _ _, writes_natural _ inRange⟩

theorem serializeShutdownAck_readable (requestId taskHash : Text) :
    Readable (serializeShutdownAck requestId taskHash) (shutdownAckMembers requestId taskHash) := by
  have sameText : serializeShutdownAck requestId taskHash = compactObject
      [⟨"type", appendJsonString (asciiText "shutdown_ack"), .string (asciiText "shutdown_ack")⟩,
        ⟨"protocol_version", printedVersion, .number 1⟩,
        ⟨"request_id", appendJsonString requestId, .string requestId⟩,
        ⟨"task_hash", appendJsonString taskHash, .string taskHash⟩] := by
    simp only [serializeShutdownAck, compactObject, List.map_cons, List.map_nil, commaSeparated_cons,
      commaSeparated_singleton, Field.written, List.append_assoc, List.cons_append]
    rfl
  rw [sameText]
  apply (@writes_object 0 _ _ _ (by dsimp only [List.map]; decide +kernel)).readable (by decide)
  simp only [List.forall_mem_cons, List.not_mem_nil, false_imp_iff, implies_true, and_true]
  exact ⟨writes_string _ _, writes_version _, writes_string _ _, writes_string _ _⟩

theorem writes_state (levels : ℕ) {state : TrajectoryStateInfo} (inRange : StateInRange state) :
    Writes (levels + 1) (appendState state) (.object (stateMembers state)) := by
  have sameText : appendState state = compactObject
      [⟨"state_index", decimal state.stateIndex, .number state.stateIndex⟩,
        ⟨"state_id", decimal state.stateId, .number state.stateId⟩,
        ⟨"h", appendOptionalNumber state.hasH state.h,
          if state.hasH && state.h.isFinite then .number state.h.reread else .null⟩] := by
    simp only [appendState, compactObject, List.map_cons, List.map_nil, commaSeparated_cons, commaSeparated_singleton,
      Field.written, List.append_assoc, List.cons_append]
    rfl
  rw [sameText]
  apply writes_object _ (by dsimp only [List.map]; decide +kernel)
  simp only [List.forall_mem_cons, List.not_mem_nil, false_imp_iff, implies_true, and_true]
  exact ⟨writes_count _ inRange.stateIndex, writes_count _ inRange.stateId, writes_optionalNumber _ inRange.h⟩

/-- The name of a further member. -/
def nameText (name : String) : Text := ascii ',' :: (appendJsonString (asciiText name) ++ [ascii ':'])

theorem responseNames :
    asciiText "\x7b\"type\":\"score_response\",\"protocol_version\":" =
      ascii '{' :: (appendJsonString (asciiText "type") ++ ascii ':' :: (appendJsonString (asciiText "score_response") ++
        nameText "protocol_version")) ∧
    asciiText ",\"request_id\":" = nameText "request_id" ∧
    asciiText ",\"problem_id\":" = nameText "problem_id" ∧
    asciiText ",\"task_hash\":" = nameText "task_hash" ∧
    asciiText ",\"status\":" = nameText "status" ∧
    asciiText ",\"outcome\":" = nameText "outcome" ∧
    asciiText ",\"generated_action_count\":" = nameText "generated_action_count" ∧
    asciiText ",\"applied_action_count\":" = nameText "applied_action_count" ∧
    asciiText ",\"invalid_action_index\":" = nameText "invalid_action_index" ∧
    asciiText ",\"path_cost\":" = nameText "path_cost" ∧
    asciiText ",\"registered_state_count\":" = nameText "registered_state_count" ∧
    asciiText ",\"scorer_seconds\":" = nameText "scorer_seconds" ∧
    asciiText ",\"recycle_recommended\":" = nameText "recycle_recommended" ∧
    asciiText ",\"recycle_reason\":" = nameText "recycle_reason" ∧
    asciiText ",\"error\":" = nameText "error" ∧
    asciiText ",\"states\":[" = nameText "states" ++ [ascii '['] ∧
    asciiText "]\x7d" = [ascii ']', ascii '}'] := by
  decide +kernel

theorem serializeScoreResponse_readable (request : ScoreRequest) (loadedTaskHash : Text)
    {result : ActionChainEvaluationResult} (recycleRecommended : Bool) (recycleReason : Text)
    (inRange : ResultInRange result) :
    Readable (serializeScoreResponse request loadedTaskHash result recycleRecommended recycleReason)
      (scoreResponseMembers request loadedTaskHash result recycleRecommended recycleReason) := by
  have sameText : serializeScoreResponse request loadedTaskHash result recycleRecommended recycleReason = compactObject
      [⟨"type", appendJsonString (asciiText "score_response"), .string (asciiText "score_response")⟩,
        ⟨"protocol_version", printedVersion, .number 1⟩,
        ⟨"request_id", appendJsonString request.requestId, .string request.requestId⟩,
        ⟨"problem_id", appendJsonString request.problemId, .string request.problemId⟩,
        ⟨"task_hash", appendJsonString loadedTaskHash, .string loadedTaskHash⟩,
        ⟨"status", appendJsonString result.status, .string result.status⟩,
        ⟨"outcome", appendOptionalString (result.outcome ≠ []) result.outcome,
          optionalString (result.outcome ≠ []) result.outcome⟩,
        ⟨"generated_action_count", decimal result.generatedActionCount, .number result.generatedActionCount⟩,
        ⟨"applied_action_count", decimal result.appliedActionCount, .number result.appliedActionCount⟩,
        ⟨"invalid_action_index",
          if result.hasInvalidAction then decimal result.invalidActionIndex else asciiText "null",
          if result.hasInvalidAction then .number result.invalidActionIndex else .null⟩,
        ⟨"path_cost", result.pathCost.print, .number result.pathCost.reread⟩,
        ⟨"registered_state_count", decimal result.registeredStateCount, .number result.registeredStateCount⟩,
        ⟨"scorer_seconds", result.scorerSeconds.print, .number result.scorerSeconds.reread⟩,
        ⟨"recycle_recommended", asciiText (if recycleRecommended then "true" else "false"), .bool recycleRecommended⟩,
        ⟨"recycle_reason", appendOptionalString recycleRecommended recycleReason,
          optionalString recycleRecommended recycleReason⟩,
        ⟨"error", appendOptionalString (result.errorMessage ≠ []) result.errorMessage,
          optionalString (result.errorMessage ≠ []) result.errorMessage⟩,
        ⟨"states", ascii '[' :: commaSeparated (result.states.map appendState) ++ [ascii ']'],
          .array (result.states.map fun state => .object (stateMembers state))⟩] := by
    unfold serializeScoreResponse
    simp only [responseNames, nameText, compactObject, List.map_cons, List.map_nil, commaSeparated_cons,
      commaSeparated_singleton, Field.written, List.append_assoc, List.cons_append, List.nil_append]
  have writesIndex : Writes 2 (if result.hasInvalidAction then decimal result.invalidActionIndex else asciiText "null")
      (if result.hasInvalidAction then .number result.invalidActionIndex else .null) := by
    split
    · exact writes_count _ inRange.invalidActionIndex
    · exact writes_null _
  rw [sameText]
  apply (@writes_object 2 _ _ _ (by dsimp only [List.map]; decide +kernel)).readable (by decide)
  simp only [List.forall_mem_cons, List.not_mem_nil, false_imp_iff, implies_true, and_true]
  exact ⟨writes_string _ _, writes_version _, writes_string _ _, writes_string _ _, writes_string _ _,
    writes_string _ _, writes_optionalString _ _ _, writes_count _ inRange.generatedActionCount,
    writes_count _ inRange.appliedActionCount, writesIndex, writes_double _ inRange.pathCost,
    writes_count _ inRange.registeredStateCount, writes_double _ inRange.scorerSeconds, writes_bool _ _,
    writes_optionalString _ _ _, writes_optionalString _ _ _,
    writes_array fun state isState => writes_state 0 (inRange.states state isState)⟩

/-- All messages are read on one line as what was serialized. -/
theorem messages_readable :
    (∀ taskHash heuristicConfig maxRequestBytes, Small maxRequestBytes →
      Readable (serializeReady taskHash heuristicConfig maxRequestBytes)
        (readyMembers taskHash heuristicConfig maxRequestBytes)) ∧
    (∀ requestId taskHash,
      Readable (serializeShutdownAck requestId taskHash) (shutdownAckMembers requestId taskHash)) ∧
    ∀ request loadedTaskHash result recycleRecommended recycleReason, ResultInRange result →
      Readable (serializeScoreResponse request loadedTaskHash result recycleRecommended recycleReason)
        (scoreResponseMembers request loadedTaskHash result recycleRecommended recycleReason) :=
  ⟨fun taskHash heuristicConfig _ small => serializeReady_reads taskHash heuristicConfig (toDouble_natCast small),
    serializeShutdownAck_readable,
    fun request loadedTaskHash _ recycleRecommended recycleReason inRange =>
      serializeScoreResponse_readable request loadedTaskHash recycleRecommended recycleReason inRange⟩

/-- A reply to a request of two actions whose second one is unknown. -/
theorem invalidReply_readable : Readable (serializeReady [0xFF, 0x00] [] 1048576) (readyMembers [0xFF, 0x00] [] 1048576) ∧
    Readable
      (serializeScoreResponse ⟨1, [0x22, 0x0A], [0x5C], [], []⟩ []
        ⟨asciiText "ok", asciiText "invalid", [], 2, 1, true, 1, .finite false 1, 17, .finite false 0,
          [⟨0, 0, true, .finite false 1⟩, ⟨1, 4, false, .finite false 0⟩]⟩ false [])
      (scoreResponseMembers ⟨1, [0x22, 0x0A], [0x5C], [], []⟩ []
        ⟨asciiText "ok", asciiText "invalid", [], 2, 1, true, 1, .finite false 1, 17, .finite false 0,
          [⟨0, 0, true, .finite false 1⟩, ⟨1, 4, false, .finite false 0⟩]⟩ false []) := by
  have one : NormalOrZero 1 := .inr (by decide +kernel)
  refine ⟨messages_readable.1 _ _ _ (by decide), messages_readable.2.2 _ _ _ _ _
    ⟨by decide, by decide, by decide, one, by decide, .inl rfl, ?_⟩⟩
  simp only [List.forall_mem_cons, List.not_mem_nil, false_imp_iff, implies_true, and_true]
  refine ⟨⟨by decide, by decide, fun _ _ => one⟩, ⟨by decide, by decide, ?_⟩⟩
  intro isReached
  cases isReached

theorem toDouble_large : toDouble (2 ^ 53 + 1 : ℕ) = some (2 ^ 53) := by decide +kernel

/-- An integer that no double holds is read as another one, and a path cost that is too small for all the digits
of a double makes a response unreadable. -/
theorem messages_unreadable :
    (¬ ∀ taskHash heuristicConfig maxRequestBytes,
      Readable (serializeReady taskHash heuristicConfig maxRequestBytes)
        (readyMembers taskHash heuristicConfig maxRequestBytes)) ∧
    ∀ members, ¬ Readable
      (serializeScoreResponse {} [] { pathCost := .finite false (2 ^ (-1074 : ℤ)) } false []) members := by
  constructor
  · intro claimed
    have reads := (serializeReady_reads [] [] toDouble_large).1
    have claims := (claimed [] [] (2 ^ 53 + 1)).1
    rw [reads] at claims
    simp only [readyMembers, Except.ok.injEq, Datum.object.injEq, List.cons.injEq, Prod.mk.injEq, Datum.number.injEq,
      true_and, and_true] at claims
    norm_num at claims
  · intro members reads
    have fails : (parse (serializeScoreResponse {} [] { pathCost := .finite false (2 ^ (-1074 : ℤ)) } false
        [])).toOption.isSome = false := by decide +kernel
    rw [reads.1] at fails
    cases fails

end CutPlan.Search
