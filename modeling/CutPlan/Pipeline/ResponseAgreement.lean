import CutPlan.Controller.ResponseBody
import CutPlan.Search.ResponseTexts

/-! # The controller and the search agree on responses

What the search makes of the body that the console sends.
-/

namespace CutPlan.Pipeline

open CutPlan.Lib CutPlan.Lib.Json CutPlan.Search CutPlan.Controller

/-! ## Members of a body -/

theorem scanned_name_eq {special : String} (isPlain : Printable special)
    (isAscii : utf8Text special = asciiText special) (noMark : ascii '?' ∉ asciiText special) {name : String} :
    scanned (encode (utf8Text name)) = asciiText special ↔ name = special := by
  constructor
  · intro isScanned
    have decoded := decode_of_scanned isScanned noMark
    rw [decode_encode, ← isAscii] at decoded
    exact utf8Text_injective decoded
  · rintro rfl
    rw [scanned_of_plain (plain_encode isPlain), decode_encode, isAscii]

theorem scanned_name_special {name : String} {special : String}
    (isSpecial : special ∈ ["status", "actions", "action_chains"]) :
    scanned (encode (utf8Text name)) = asciiText special ↔ name = special := by
  have specials : ∀ special ∈ ["status", "actions", "action_chains"], Printable special ∧
      utf8Text special = asciiText special ∧ ascii '?' ∉ asciiText special := by decide +kernel
  obtain ⟨isPlain, isAscii, noMark⟩ := specials special isSpecial
  exact scanned_name_eq isPlain isAscii noMark

theorem scanned_printable {text : String} (printable : Printable text) :
    scanned (encode (utf8Text text)) = utf8Text text := by
  rw [scanned_of_plain (plain_encode printable), decode_encode]

theorem scanned_items {texts : List String} (printable : ∀ text ∈ texts, Printable text) :
    (stringArray texts).items.map scanned = texts.map utf8Text := by
  rw [stringArray_items, List.map_map]
  exact List.map_congr_left fun text isText => scanned_printable (printable text isText)

theorem scanned_rows {rows : List (List String)} (printable : ∀ row ∈ rows, ∀ text ∈ row, Printable text) :
    (stringMatrix rows).items.map (·.map scanned) = rows.map (·.map utf8Text) := by
  rw [stringMatrix_items, List.map_map]
  apply List.map_congr_left
  intro row isRow
  have items := scanned_items (printable row isRow)
  rw [stringArray_items] at items
  exact items

/-- What a body tells the search, in strings without control characters. -/
structure Payload where
  status : String
  actions : List String
  actionChains : Option (List (List String))
  printableStatus : Printable status
  printableActions : ∀ action ∈ actions, Printable action
  printableChains : ∀ chains ∈ actionChains, ∀ chain ∈ chains, ∀ action ∈ chain, Printable action

namespace Payload

structure Typed (payload : Payload) (entry : String × Value) : Prop where
  status : entry.1 = "status" → entry.2 = .string payload.status
  actions : entry.1 = "actions" → entry.2 = stringsValue payload.actions
  actionChains : entry.1 = "action_chains" →
    ∃ chains, payload.actionChains = some chains ∧ entry.2 = matrixValue chains

/-- What is known of the fields while some entries of the body remain. -/
structure Read (payload : Payload) (remaining : Entries) (fields : ResponseFields) : Prop where
  status : "status" ∉ remaining.map Prod.fst → fields.status = some (utf8Text payload.status)
  actions : "actions" ∉ remaining.map Prod.fst → fields.actions = some (payload.actions.map utf8Text)
  actionsUnread : "actions" ∈ remaining.map Prod.fst → fields.actions = none
  actionChains : "action_chains" ∉ remaining.map Prod.fst →
    fields.actionChains = payload.actionChains.map (·.map (·.map utf8Text))
  actionChainsUnread : "action_chains" ∈ remaining.map Prod.fst → fields.actionChains = none

variable {payload : Payload} {entry : String × Value} {remaining : Entries} {fields : ResponseFields}

theorem exists_readMember (before : Whitespace) (typed : payload.Typed entry)
    (notRemaining : entry.1 ∉ remaining.map Prod.fst) (read : payload.Read (entry :: remaining) fields) :
    ∃ after, payload.Read remaining after ∧ ReadMember fields (plainMember before entry) after := by
  obtain ⟨name, value⟩ := entry
  obtain ⟨status, actions, actionsUnread, actionChains, actionChainsUnread⟩ := read
  simp only [List.map_cons, List.mem_cons, not_or] at status actions actionsUnread actionChains actionChainsUnread
  by_cases isStatus : name = "status"
  · subst isStatus
    have reads := @ReadMember.status fields (plainMember before ("status", value))
      (encode (utf8Text payload.status)) ((scanned_name_special (by decide)).mpr rfl) (congrArg dumps (typed.status rfl))
    rw [scanned_printable payload.printableStatus] at reads
    refine ⟨_, ⟨fun _ => rfl, ?_, ?_, ?_, ?_⟩, reads⟩
    · exact fun isRead => actions ⟨by decide, isRead⟩
    · exact fun isUnread => actionsUnread (.inr isUnread)
    · exact fun isRead => actionChains ⟨by decide, isRead⟩
    · exact fun isUnread => actionChainsUnread (.inr isUnread)
  by_cases isActions : name = "actions"
  · subst isActions
    have isText := (congrArg dumps (typed.actions rfl)).trans (dumps_stringsValue payload.actions)
    have reads := @ReadMember.actions fields (plainMember before ("actions", value)) _
      ((scanned_name_special (by decide)).mpr rfl) isText
    rw [actionsUnread (.inl rfl), scanned_items payload.printableActions] at reads
    refine ⟨_, ⟨?_, ?_, ?_, ?_, ?_⟩, reads⟩
    · exact fun isRead => status ⟨by decide, isRead⟩
    · exact fun _ => rfl
    · exact fun isUnread => absurd isUnread notRemaining
    · exact fun isRead => actionChains ⟨by decide, isRead⟩
    · exact fun isUnread => actionChainsUnread (.inr isUnread)
  by_cases isChains : name = "action_chains"
  · subst isChains
    obtain ⟨chains, hasChains, isMatrix⟩ := typed.actionChains rfl
    have isText := (congrArg dumps isMatrix).trans (dumps_matrixValue chains)
    have reads := @ReadMember.actionChains fields (plainMember before ("action_chains", value)) _
      ((scanned_name_special (by decide)).mpr rfl) isText
    rw [actionChainsUnread (.inl rfl), scanned_rows (payload.printableChains chains hasChains)] at reads
    refine ⟨_, ⟨?_, ?_, ?_, ?_, ?_⟩, reads⟩
    · exact fun isRead => status ⟨by decide, isRead⟩
    · exact fun isRead => actions ⟨by decide, isRead⟩
    · exact fun isUnread => actionsUnread (.inr isUnread)
    · exact fun _ => by rw [hasChains]; rfl
    · exact fun isUnread => absurd isUnread notRemaining
  have other : scanned (encode (utf8Text name)) ∉ ["status", "actions", "action_chains"].map asciiText := by
    rw [List.mem_map]
    rintro ⟨special, isSpecial, isName⟩
    have same := (scanned_name_special isSpecial).mp isName.symm
    subst same
    simp [isStatus, isActions, isChains] at isSpecial
  refine ⟨fields, ⟨?_, ?_, ?_, ?_, ?_⟩, .other other (dumps_isValue value)⟩
  · exact fun isRead => status ⟨Ne.symm isStatus, isRead⟩
  · exact fun isRead => actions ⟨Ne.symm isActions, isRead⟩
  · exact fun isUnread => actionsUnread (.inr isUnread)
  · exact fun isRead => actionChains ⟨Ne.symm isChains, isRead⟩
  · exact fun isUnread => actionChainsUnread (.inr isUnread)

theorem exists_readMembers (before : Whitespace) {entries : Entries}
    (typed : ∀ entry ∈ entries, payload.Typed entry) (keysNodup : (entries.map Prod.fst).Nodup)
    (read : payload.Read entries fields) :
    ∃ after, payload.Read [] after ∧ ReadMembers fields (entries.map (plainMember before)) after := by
  induction entries generalizing fields with
  | nil => exact ⟨fields, read, .nil⟩
  | cons entry entries inductionHypothesis =>
    rw [List.map_cons, List.nodup_cons] at keysNodup
    rw [List.forall_mem_cons] at typed
    obtain ⟨between, readBetween, first⟩ := exists_readMember before typed.1 keysNodup.1 read
    obtain ⟨after, readAfter, rest⟩ := inductionHypothesis typed.2 keysNodup.2 readBetween
    exact ⟨after, readAfter, .cons first rest⟩

/-- A body with the members of the payload. -/
structure In (payload : Payload) (body : Dictionary String Value) : Prop where
  status : body.get? "status" = some (.string payload.status)
  actions : body.get? "actions" = some (stringsValue payload.actions)
  actionChains : body.get? "action_chains" = payload.actionChains.map matrixValue

variable {body : Dictionary String Value}

theorem In.typed (isIn : payload.In body) : ∀ entry ∈ body.entries, payload.Typed entry := by
  rintro ⟨name, value⟩ isEntry
  have found := Dictionary.get?_eq_some.mpr isEntry
  constructor
  · rintro rfl
    exact Option.some_inj.mp (found.symm.trans isIn.status)
  · rintro rfl
    exact Option.some_inj.mp (found.symm.trans isIn.actions)
  · rintro rfl
    obtain ⟨chains, hasChains, isMatrix⟩ := Option.map_eq_some_iff.mp (isIn.actionChains.symm.trans found)
    exact ⟨chains, hasChains, isMatrix.symm⟩

theorem mem_keys {key : String} {value : Value} (isValue : body.get? key = some value) :
    key ∈ body.entries.map Prod.fst :=
  List.mem_map_of_mem (Dictionary.get?_eq_some.mp isValue)

theorem In.read (isIn : payload.In body) : payload.Read body.entries ⟨none, none, none⟩ where
  status isRead := absurd (mem_keys isIn.status) isRead
  actions isRead := absurd (mem_keys isIn.actions) isRead
  actionsUnread _ := rfl
  actionChains isRead := by
    cases hasChains : payload.actionChains with
    | none => rfl
    | some chains =>
      have isChains := isIn.actionChains
      rw [hasChains] at isChains
      exact absurd (mem_keys isChains) isRead
  actionChainsUnread _ := rfl

/-- The search reads the payload of a body. -/
theorem In.parse (isIn : payload.In body) :
    parseResponseBody (dumps (.object body.entries)) = .ok ⟨utf8Text payload.status,
      (payload.actionChains.getD [payload.actions]).map (·.map utf8Text)⟩ := by
  have nonempty : body.entries ≠ [] := by
    intro isEmpty
    have isKey := mem_keys isIn.status
    rw [isEmpty] at isKey
    cases isKey
  obtain ⟨first, rest, isList⟩ := List.exists_cons_of_ne_nil nonempty
  have typed := isIn.typed
  have read := isIn.read
  have keysNodup := body.keysNodup
  rw [isList, List.map_cons, List.nodup_cons] at keysNodup
  rw [isList, List.forall_mem_cons] at typed
  rw [isList] at read
  obtain ⟨between, readBetween, readsFirst⟩ := exists_readMember noSpace typed.1 keysNodup.1 read
  obtain ⟨after, readAfter, readsRest⟩ := exists_readMembers oneSpace typed.2 keysNodup.2 readBetween
  let object : ObjectText := ⟨noSpace, plainMember noSpace first, rest.map (plainMember oneSpace), noSpace⟩
  have isText : dumps (.object body.entries) = object.text := by
    rw [isList, dumps, spaceSeparated_dumpsMembers]
    simp [object, ObjectText.text, ObjectText.members, noSpace]
  have actions := readAfter.actions List.not_mem_nil
  have actionChains := readAfter.actionChains List.not_mem_nil
  have parses := @parseResponseBody_object object after _ (.cons readsFirst readsRest)
    (readAfter.status List.not_mem_nil) (.inl (by rw [actions]; exact Option.some_ne_none _))
  rw [isText, parses, actions, actionChains]
  cases payload.actionChains <;> rfl

end Payload

/-! ## Strings of the search -/

/-- A string of the search has one character per byte. -/
def byteString (text : Text) : String := String.ofList (text.map fun byte => Char.ofNat byte.toNat)

def stringBytes (text : String) : Text := text.toList.map fun char => char.toNat.toUInt8

/-- A string of the controller as the search holds it. -/
def utf8String (text : String) : String := byteString (utf8Text text)

theorem stringBytes_byteString (text : Text) : stringBytes (byteString text) = text := by
  have byte : ∀ byte : UInt8, (Char.ofNat byte.toNat).toNat.toUInt8 = byte := forall_byte (by decide +kernel)
  rw [stringBytes, byteString, String.toList_ofList, List.map_map]
  exact (List.map_congr_left fun char _ => byte char).trans (List.map_id _)

def parseLlmResponseBody (body : String) : ParsedLlmResponse :=
  match parseResponseBody (stringBytes body) with
  | .ok response =>
    { valid := true
      status := byteString response.status
      actionChains := response.actionChains.map (·.map byteString) }
  | .error _ => { valid := false, status := "", actionChains := [] }

theorem utf8String_status (status : RequestStatus) : utf8String status.text = status.text := by
  cases status <;> decide +kernel

/-- The body that is sent for a request. -/
def sentText (echo : RequestEcho) (report : PromptReport) (outcome : Outcome) (active : Bool) : String :=
  byteString (dumps (.object (outcome.sentBody echo report active).entries))

theorem filter_map_chains (chains : List (List String)) :
    (chains.map (·.map utf8String)).filter (fun chain => !chain.isEmpty) =
      (chains.filter fun chain => !chain.isEmpty).map (·.map utf8String) := by
  rw [List.filter_map]
  simp [Function.comp_def]

section Sent

variable {body : Dictionary String Value} {status : RequestStatus} {actions : List String}
  {actionChains : Option (List (List String))}

theorem printable_status (status : RequestStatus) : Printable status.text := by
  cases status <;> decide +kernel

theorem parse_carries (carries : Carries body status actions actionChains)
    (printableActions : ∀ action ∈ actions, Printable action)
    (printableChains : ∀ chains ∈ actionChains, ∀ chain ∈ chains, ∀ action ∈ chain, Printable action) :
    parseLlmResponseBody (byteString (dumps (.object body.entries))) =
      ⟨true, status.text, (actionChains.getD [actions]).map (·.map utf8String)⟩ := by
  let payload : Payload :=
    ⟨status.text, actions, actionChains, printable_status status, printableActions, printableChains⟩
  have isIn : payload.In body := ⟨carries.status, carries.actions, carries.actionChains⟩
  have parses := isIn.parse
  rw [parseLlmResponseBody, stringBytes_byteString, parses]
  have sameStatus : byteString (utf8Text payload.status) = status.text := utf8String_status status
  have sameChains : ((actionChains.getD [actions]).map (·.map utf8Text)).map (·.map byteString) =
      (actionChains.getD [actions]).map (·.map utf8String) := by
    rw [List.map_map]
    exact List.map_congr_left fun chain _ => List.map_map
  simp only [sameStatus]
  exact congrArg (ParsedLlmResponse.mk true status.text) sameChains

/-- A body is never empty. -/
theorem body_ne_empty (body : Dictionary String Value) :
    (byteString (dumps (.object body.entries))).isEmpty = false := by
  rw [Bool.eq_false_iff, ne_eq, String.isEmpty_iff]
  intro isEmpty
  have noBytes := congrArg stringBytes isEmpty
  rw [stringBytes_byteString] at noBytes
  cases noBytes

theorem usableStatus_iff (chains : List (List String)) :
    (ParsedLlmResponse.mk true status.text chains).usableStatus = true ↔ status = .ok ∨ status = .partialPlan := by
  cases status <;> simp [ParsedLlmResponse.usableStatus, RequestStatus.text]

theorem chainsToInject_eq {S : Type} (stateId : S) {chains : List (List String)}
    (parses : parseLlmResponseBody (byteString (dumps (.object body.entries))) = ⟨true, status.text, chains⟩) :
    LlmResponse.chainsToInject parseLlmResponseBody
        ⟨stateId, true, byteString (dumps (.object body.entries))⟩ =
      if status = .ok ∨ status = .partialPlan then chains.filter (fun chain => !chain.isEmpty) else [] := by
  simp only [LlmResponse.chainsToInject, body_ne_empty, parses, Bool.not_true, Bool.or_self, Bool.false_eq_true,
    if_false, usableStatus_iff]

end Sent

section Samples

variable {State : Type} {problem : Except String (Simulator State)}
  (names : ∀ simulator, problem = .ok simulator → simulator.PrintableNames) (echo : RequestEcho)
  (report : PromptReport)

include names in
/-- What the search makes of the samples while the phase goes on. -/
theorem parse_sampled {outputs : List ModelOutput} {primary : SampleResult}
    (isPrimary : primarySample (outputs.map (sampleResult problem)) = some primary) :
    parseLlmResponseBody (sentText echo report (.model (outputs.map (sampleResult problem))) true) =
      ⟨true, primary.status.text,
        (outputs.map (sampleResult problem)).map fun sample => sample.actions.map utf8String⟩ := by
  have carries := @sentBody_carries echo report (.model (outputs.map (sampleResult problem))) true
  have printable : ∀ sample ∈ outputs.map (sampleResult problem), ∀ action ∈ sample.actions, Printable action := by
    rw [List.forall_mem_map]
    exact fun output _ => Simulator.printable_actions names output
  have isSample : primary ∈ outputs.map (sampleResult problem) := List.mem_of_getElem? isPrimary
  rw [if_neg (by simp)] at carries
  simp only [Outcome.result, Outcome.actions, Outcome.actionChains, isPrimary, Option.elim_some,
    Option.map_some] at carries
  rw [sentText, parse_carries carries (printable primary isSample)]
  · rw [Option.getD_some, List.map_map]
    rfl
  · rintro chains ⟨⟩ chain isChain
    obtain ⟨sample, isMember, rfl⟩ := List.mem_map.mp isChain
    exact printable sample isMember

theorem model_status_ne (outputs : List ModelOutput) :
    (Outcome.model (outputs.map (sampleResult problem))).result.status ≠ .staleIteration := by
  rw [Outcome.result]
  cases isPrimary : primarySample (outputs.map (sampleResult problem)) with
  | none => simp
  | some primary =>
    obtain ⟨output, _, rfl⟩ := List.mem_map.mp (List.mem_of_getElem? isPrimary)
    have isStatus := sampleResult_status problem output
    intro isStale
    simp only at isStale
    rw [isStale] at isStatus
    revert isStatus
    decide

theorem parse_ended (outputs : List ModelOutput) :
    parseLlmResponseBody (sentText echo report (.model (outputs.map (sampleResult problem))) false) =
      ⟨true, RequestStatus.staleIteration.text, []⟩ := by
  have carries := @sentBody_carries echo report (.model (outputs.map (sampleResult problem))) false
  rw [if_pos ⟨model_status_ne outputs, rfl⟩] at carries
  rw [sentText, parse_carries carries (by simp) (by simp)]
  rfl

theorem parse_noSamples :
    parseLlmResponseBody (sentText echo report (.model []) true) =
      ⟨true, RequestStatus.internalError.text, [[]]⟩ := by
  have carries := @sentBody_carries echo report (.model []) true
  rw [if_neg (by simp)] at carries
  have isError : Carries (Outcome.sentBody echo report (.model []) true) .internalError [] none := carries
  rw [sentText, parse_carries isError (by simp) (by simp)]
  rfl

end Samples

/-- The search injects the action chains of the samples.  A chain is empty exactly when its sample is not
usable, and the status is accepted exactly when some chain is not empty.  Of a response that is stale by now
nothing is left. -/
theorem sampled_chains_injected {S State : Type} (stateId : S) (echo : RequestEcho) (report : PromptReport)
    (problem : Except String (Simulator State))
    (names : ∀ simulator, problem = .ok simulator → simulator.PrintableNames) (outputs : List ModelOutput)
    (active : Bool) :
    let samples := outputs.map (sampleResult problem)
    let body := sentText echo report (.model samples) active
    let parsed := parseLlmResponseBody body
    parsed.valid = true ∧
      LlmResponse.chainsToInject parseLlmResponseBody ⟨stateId, true, body⟩ =
        (if active then
          ((samples.map SampleResult.actions).filter (fun chain => !chain.isEmpty)).map (·.map utf8String)
        else []) ∧
      (active = true → ∀ (index : ℕ) (sample : SampleResult), samples[index]? = some sample →
        (parsed.actionChains[index]?.getD [] ≠ [] ↔ sample.usable = true)) ∧
      (parsed.usableStatus = true ↔ ∃ chain ∈ parsed.actionChains, chain ≠ []) := by
  intro samples body parsed
  cases active with
  | false =>
    have parses : parsed = ⟨true, RequestStatus.staleIteration.text, []⟩ := parse_ended echo report outputs
    refine ⟨by rw [parses], (chainsToInject_eq stateId parses).trans (by simp), by simp, ?_⟩
    rw [parses, usableStatus_iff]
    simp
  | true =>
    by_cases noSamples : outputs = []
    · subst noSamples
      have parses : parsed = ⟨true, RequestStatus.internalError.text, [[]]⟩ := parse_noSamples echo report
      refine ⟨by rw [parses], (chainsToInject_eq stateId parses).trans (by simp [samples]), by simp [samples], ?_⟩
      rw [parses, usableStatus_iff]
      simp
    · obtain ⟨primary, _, isPrimary⟩ := exists_primarySample
        (show outputs.map (sampleResult problem) ≠ [] by simpa using noSamples)
      have parses : parsed = ⟨true, primary.status.text, samples.map fun sample => sample.actions.map utf8String⟩ :=
        parse_sampled names echo report isPrimary
      have accepts := primary_status_iff isPrimary
      refine ⟨by rw [parses], ?_, fun _ => ?_, ?_⟩
      · refine (chainsToInject_eq stateId parses).trans ?_
        rw [if_pos rfl, ← filter_map_chains]
        split
        · exact congrArg _ (List.map_map (f := SampleResult.actions) (l := samples)).symm
        · rename_i refused
          -- the filter leaves nothing either
          rw [eq_comm, List.filter_eq_nil_iff]
          rw [accepts] at refused
          simpa [samples] using refused
      · intro index sample isSample
        obtain ⟨output, _, rfl⟩ := List.mem_map.mp (List.mem_of_getElem? isSample)
        rw [parses, sampleResult_usable, List.getElem?_map, isSample]
        simp
      · rw [parses, usableStatus_iff, accepts]
        simp [samples]

/-- A problem with one action that is always applicable. -/
def liftProblem : Simulator Unit where
  initialState := ()
  isGoal := none
  action name := if name = "lift" then .ok () else .error name
  object name := if name ∈ ["hoist", "crate"] then .ok () else .error name
  isApplicable _ _ _ := .ok true
  apply _ _ _ := .ok ()

theorem liftProblem_names : liftProblem.PrintableNames where
  action name isKnown := by
    have isLift : name = "lift" := by
      by_contra unknown
      simp [liftProblem, unknown] at isKnown
    subst isLift
    decide
  object name isKnown := by
    have isObject : name ∈ ["hoist", "crate"] := by
      by_contra unknown
      simp only [liftProblem, unknown, if_false] at isKnown
      cases isKnown
    have objects : ∀ name ∈ ["hoist", "crate"], Printable name := by decide
    exact objects name isObject

/-- A sample with a legal action and one without a text. -/
def twoOutputs : List ModelOutput := [
  ⟨⟨1, halfSecond, none⟩, .ok (.ok [⟨"action_Lift", "lift", ["hoist", "crate"]⟩])⟩,
  ⟨⟨3, halfSecond, none⟩, .error (some "timeout")⟩]

theorem lift_injected :
    LlmResponse.chainsToInject parseLlmResponseBody ⟨0, true, sentText
      ⟨.string "request", .string "run", 1, .null, .string "state"⟩ ⟨10, 20, none, none, none⟩
      (.model (twoOutputs.map (sampleResult (.ok liftProblem)))) true⟩ = [["(lift hoist crate)"]] :=
  (sampled_chains_injected 0 ⟨.string "request", .string "run", 1, .null, .string "state"⟩
    ⟨10, 20, none, none, none⟩ (.ok liftProblem) (fun _ same => by cases same; exact liftProblem_names)
    twoOutputs true).2.1.trans (by decide +kernel)

end CutPlan.Pipeline
