import CutPlan.Search.ResponseDecoding

/-! # Responses keep their status and their chains

What `parse_llm_response_body` returns for a response in the grammar.
-/

namespace CutPlan.Search

open CutPlan.Lib.Json

/-! ## Arrays of strings -/

/-- An item is read up to what follows it. -/
def Reads {α : Type} (parseItem : Text → Except String (α × Text)) (text : Text) (item : α) : Prop :=
  ∀ (space : Whitespace) rest, parseItem (space.1 ++ (text ++ rest)) = .ok (item, rest)

theorem parseItems_eq {α β : Type} {parseItem : Text → Except String (α × Text)} {itemText : β → Text}
    {itemValue : β → α} (unterminated separator : String) {first : Whitespace × β × Whitespace}
    {rest : List (Whitespace × β × Whitespace)}
    (reads : ∀ item ∈ first :: rest, Reads parseItem (itemText item.2.1) (itemValue item.2.1)) {fuel : ℕ}
    (enough : (commaSeparated ((first :: rest).map (paddedText itemText))).length < fuel) (result : List α)
    (text : Text) :
    parseItems parseItem unterminated separator fuel result
        (commaSeparated ((first :: rest).map (paddedText itemText)) ++ ascii ']' :: text) =
      .ok (result ++ (first :: rest).map fun item => itemValue item.2.1, text) := by
  induction rest generalizing first fuel result with
  | nil =>
    obtain ⟨fuel, rfl⟩ : ∃ less, fuel = less + 1 := ⟨fuel - 1, by omega⟩
    have readsFirst := reads first (List.mem_cons_self ..) first.1
    rw [List.map_cons, List.map_nil, commaSeparated_singleton, parseItems, if_neg (by simp), paddedText]
    simp only [List.append_assoc, readsFirst, ok_bind, parseSeparator_close (ascii ']') (by decide) (by decide)]
    rfl
  | cons second rest inductionHypothesis =>
    rw [List.map_cons, List.map_cons, commaSeparated_cons, ← List.map_cons, paddedText] at enough ⊢
    simp only [List.length_append, List.length_cons] at enough
    obtain ⟨fuel, rfl⟩ : ∃ less, fuel = less + 1 := ⟨fuel - 1, by omega⟩
    rw [List.forall_mem_cons] at reads
    rw [parseItems, if_neg (by simp)]
    simp only [List.append_assoc, List.cons_append, reads.1 first.1, ok_bind, parseSeparator_comma]
    rw [inductionHypothesis reads.2 (by omega), List.append_assoc]
    rfl

theorem parseItems_skip {α : Type} {parseItem : Text → Except String (α × Text)}
    (insensitive : ∀ text, parseItem (skipJsonWhitespace text) = parseItem text)
    (unterminated separator : String) {text : Text} (nonempty : skipJsonWhitespace text ≠ []) (fuel : ℕ)
    (result : List α) :
    parseItems parseItem unterminated separator fuel result (skipJsonWhitespace text) =
      parseItems parseItem unterminated separator fuel result text := by
  have notEmpty : text ≠ [] := fun isEmpty => nonempty (by rw [isEmpty]; rfl)
  cases fuel with
  | zero => rfl
  | succ fuel => rw [parseItems, parseItems, if_neg nonempty, if_neg notEmpty, insensitive]

/-- Several items and the end of their array. -/
theorem parseItems_array {α β : Type} {parseItem : Text → Except String (α × Text)} {itemText : β → Text}
    (itemValue : β → α) (unterminated separator : String) {first : Whitespace × β × Whitespace}
    {rest : List (Whitespace × β × Whitespace)}
    (insensitive : ∀ text, parseItem (skipJsonWhitespace text) = parseItem text)
    (reads : ∀ item ∈ first :: rest, Reads parseItem (itemText item.2.1) (itemValue item.2.1))
    {byte : UInt8} {firstRest : Text} (isFirst : itemText first.2.1 = byte :: firstRest)
    (notEnd : endsScalar byte = false) (result : List α) (text : Text) :
    let items := commaSeparated ((first :: rest).map (paddedText itemText)) ++ ascii ']' :: text
    parseEmpty (ascii ']') items = none ∧
      parseItems parseItem unterminated separator (items.length + 1) result (skipJsonWhitespace items) =
        .ok (result ++ (first :: rest).map fun item => itemValue item.2.1, text) := by
  intro items
  have isText : paddedText itemText first = first.1.1 ++ byte :: (firstRest ++ first.2.2.1) := by
    rw [paddedText, isFirst, List.append_assoc, List.cons_append]
  obtain ⟨tail, starts⟩ := exists_start isText notEnd (rest.map (paddedText itemText)) (ascii ']' :: text)
  have notClose : byte ≠ ascii ']' := by
    rintro rfl
    cases notEnd
  constructor
  · exact parseEmpty_none starts notClose
  · rw [parseItems_skip insensitive _ _ (starts ▸ List.cons_ne_nil byte tail)]
    apply parseItems_eq _ _ reads
    simp only [items, List.length_append]
    omega

theorem parseJsonStringArray_text (array : StringArray) (result : List Text) (space : Whitespace) (rest : Text) :
    parseJsonStringArray result (space.1 ++ (array.text ++ rest)) =
      .ok (result ++ array.items.map scanned, rest) := by
  rw [parseJsonStringArray]
  cases array with
  | empty inner =>
    simp only [StringArray.text, List.cons_append, List.append_assoc, List.nil_append, parseOpen_append,
      ok_bind, parseEmpty_close (ascii ']') (by decide)]
    simp [StringArray.items, pure, Except.pure]
  | strings first others =>
    obtain ⟨notEmpty, items⟩ := parseItems_array scanned "unterminated actions array"
      "expected ',' or ']' in actions array" parseJsonString_skip
      (fun item (_ : item ∈ first :: others) space rest => parseJsonString_quoted space item.2.1 rest)
      (show quoted first.2.1 = _ from rfl) (by decide) result rest
    simp only [StringArray.text, List.cons_append, List.append_assoc, List.nil_append, parseOpen_append,
      ok_bind]
    rw [notEmpty, StringArray.items, List.map_map]
    exact items

@[simp] theorem parseJsonStringArray_skip (result : List Text) (text : Text) :
    parseJsonStringArray result (skipJsonWhitespace text) = parseJsonStringArray result text := by
  rw [parseJsonStringArray, parseJsonStringArray, parseOpen, parseOpen, skipJsonWhitespace_idem]

theorem exists_arrayText (array : StringArray) : ∃ arrayRest, array.text = ascii '[' :: arrayRest := by
  cases array with
  | empty space => exact ⟨_, rfl⟩
  | strings first rest => exact ⟨_, rfl⟩

theorem parseJsonStringMatrix_text (matrix : StringMatrix) (result : List (List Text)) (space : Whitespace)
    (rest : Text) :
    parseJsonStringMatrix result (space.1 ++ (matrix.text ++ rest)) =
      .ok (result ++ matrix.items.map (·.map scanned), rest) := by
  rw [parseJsonStringMatrix]
  cases matrix with
  | empty inner =>
    simp only [StringMatrix.text, List.cons_append, List.append_assoc, List.nil_append, parseOpen_append,
      ok_bind, parseEmpty_close (ascii ']') (by decide)]
    simp [StringMatrix.items, pure, Except.pure]
  | rows first others =>
    have reads : ∀ array : StringArray, Reads (parseJsonStringArray []) array.text (array.items.map scanned) :=
      fun array space rest => parseJsonStringArray_text array [] space rest
    obtain ⟨firstRest, isFirst⟩ := exists_arrayText first.2.1
    obtain ⟨notEmpty, items⟩ := parseItems_array (·.items.map scanned) "unterminated action_chains array"
      "expected ',' or ']' in action_chains array" (parseJsonStringArray_skip [])
      (fun item (_ : item ∈ first :: others) => reads item.2.1) isFirst (by decide) result rest
    simp only [StringMatrix.text, List.cons_append, List.append_assoc, List.nil_append, parseOpen_append,
      ok_bind]
    rw [notEmpty, StringMatrix.items, List.map_map]
    exact items

/-! ## Members of the response -/

theorem parseEmpty_member (member : Member) (rest : Text) :
    parseEmpty (ascii '}') (member.text ++ rest) = none := by
  obtain ⟨memberRest, isText⟩ := exists_memberText member
  rw [isText, List.append_assoc, List.cons_append]
  have starts := skipJsonWhitespace_append member.before (ascii '"' :: (memberRest ++ rest))
  rw [skipJsonWhitespace_cons (by decide)] at starts
  exact parseEmpty_none starts (by decide)

/-- What a member does to the fields. -/
inductive ReadMember (fields : ResponseFields) (member : Member) : ResponseFields → Prop where
  | status {pieces : List StringPiece} (isName : scanned member.name = asciiText "status")
      (isText : member.value.value = quoted pieces) :
      ReadMember fields member { fields with status := some (scanned pieces) }
  | actions {array : StringArray} (isName : scanned member.name = asciiText "actions")
      (isText : member.value.value = array.text) :
      ReadMember fields member
        { fields with actions := some (fields.actions.getD [] ++ array.items.map scanned) }
  | actionChains {matrix : StringMatrix} (isName : scanned member.name = asciiText "action_chains")
      (isText : member.value.value = matrix.text) :
      ReadMember fields member
        { fields with
          actionChains := some (fields.actionChains.getD [] ++ matrix.items.map (·.map scanned)) }
  | other (isName : scanned member.name ∉ ["status", "actions", "action_chains"].map asciiText)
      (isValue : IsValue member.value.value) : ReadMember fields member fields

inductive ReadMembers : ResponseFields → List Member → ResponseFields → Prop where
  | nil {fields : ResponseFields} : ReadMembers fields [] fields
  | cons {fields between after : ResponseFields} {member : Member} {members : List Member}
      (first : ReadMember fields member between) (rest : ReadMembers between members after) :
      ReadMembers fields (member :: members) after

theorem parseField_member {fields after : ResponseFields} {member : Member}
    (reads : ReadMember fields member after) {rest : Text} (delimited : Delimited rest) :
    parseField fields (scanned member.name) (member.value.before.1 ++ (member.value.value ++ rest)) =
      .ok (after, rest) := by
  cases reads with
  | status isName isText =>
    rw [parseField, if_pos isName, isText, parseJsonString_quoted, ok_bind]
    rfl
  | actions isName isText =>
    rw [parseField, isName, if_neg (by decide), if_pos rfl, isText, parseJsonStringArray_text, ok_bind]
    rfl
  | actionChains isName isText =>
    rw [parseField, isName, if_neg (by decide), if_neg (by decide), if_pos rfl, isText,
      parseJsonStringMatrix_text, ok_bind]
    rfl
  | other isName isValue =>
    simp only [List.map_cons, List.map_nil, List.mem_cons, List.not_mem_nil, or_false, not_or] at isName
    rw [parseField, if_neg isName.1, if_neg isName.2.1, if_neg isName.2.2,
      IsValue.skips isValue _ _ _ (by simp; omega) delimited, ok_bind]
    rfl

theorem parseFields_members {first : Member} {others : List Member} {fields after : ResponseFields}
    (reads : ReadMembers fields (first :: others) after) {fuel : ℕ}
    (enough : (commaSeparated ((first :: others).map Member.text)).length < fuel) (text : Text) :
    parseFields fuel fields (commaSeparated ((first :: others).map Member.text) ++ ascii '}' :: text) =
      .ok (after, text) := by
  induction others generalizing first fields fuel with
  | nil =>
    obtain ⟨fuel, rfl⟩ : ∃ less, fuel = less + 1 := ⟨fuel - 1, by omega⟩
    obtain - | ⟨readsFirst, ⟨⟩⟩ := reads
    have parses := parseField_member readsFirst
      (delimited_append first.value.after (show endsScalar (ascii '}') = true by decide) text)
    rw [List.map_cons, List.map_nil, commaSeparated_singleton, parseFields, if_neg (by simp [Member.text]),
      parseEmpty_member]
    simp only [Member.text, Padded.text, List.append_assoc, List.cons_append, parseJsonString_quoted,
      parseColon_append, parses, ok_bind, parseSeparator_close (ascii '}') (by decide) (by decide)]
    rfl
  | cons second others inductionHypothesis =>
    rw [List.map_cons, List.map_cons, commaSeparated_cons, ← List.map_cons] at enough ⊢
    simp only [List.length_append, List.length_cons] at enough
    obtain ⟨fuel, rfl⟩ : ∃ less, fuel = less + 1 := ⟨fuel - 1, by omega⟩
    obtain - | ⟨readsFirst, readsOthers⟩ := reads
    have parses := parseField_member readsFirst
      (delimited_append first.value.after (show endsScalar (ascii ',') = true by decide)
        (commaSeparated ((second :: others).map Member.text) ++ ascii '}' :: text))
    rw [List.append_assoc, parseFields, if_neg (by simp [Member.text]), parseEmpty_member]
    simp only [Member.text, Padded.text, List.append_assoc, List.cons_append, parseJsonString_quoted,
      parseColon_append, parses, ok_bind, parseSeparator_comma]
    exact inductionHypothesis readsOthers (by omega)

/-- What an object is decoded to, once it has a status and actions or action chains. -/
theorem parseResponseBody_object {object : ObjectText} {after : ResponseFields} {status : Text}
    (reads : ReadMembers ⟨none, none, none⟩ object.members after) (isStatus : after.status = some status)
    (hasPayload : after.actions ≠ none ∨ after.actionChains ≠ none) :
    parseResponseBody object.text = .ok ⟨status, after.actionChains.getD [after.actions.getD []]⟩ := by
  let members := commaSeparated (object.members.map Member.text) ++ ascii '}' :: object.after.1
  have enough : (commaSeparated (object.members.map Member.text)).length < members.length + 1 := by
    simp only [members, List.length_append]
    omega
  have readsMembers : parseFields (members.length + 1) ⟨none, none, none⟩ members = .ok (after, object.after.1) :=
    parseFields_members reads enough object.after.1
  have trailing : skipJsonWhitespace object.after.1 = [] := by
    have nothing := skipJsonWhitespace_append object.after []
    rwa [List.append_nil] at nothing
  obtain ⟨statusRead, actions, chains⟩ := after
  cases isStatus
  rw [ObjectText.text, parseResponseBody, List.append_assoc, List.cons_append, skipJsonWhitespace_append,
    skipJsonWhitespace_cons (by decide)]
  simp only [ne_eq, not_true_eq_false, if_false]
  rw [readsMembers, ok_bind]
  cases actions with
  | none =>
    cases chains with
    | none => simp at hasPayload
    | some chains =>
      simp only [trailing, not_true_eq_false, if_false]
      rfl
  | some actions =>
    simp only [trailing, not_true_eq_false, if_false]
    rfl

/-- A response: an object with a status and action chains, which are strings without unicode escapes. -/
structure ResponseText where
  object : ObjectText
  values : ∀ member ∈ object.members, IsValue member.value.value
  distinct : object.DistinctNames
  statusMember : Member
  isStatusMember : statusMember ∈ object.members
  statusName : decode statusMember.name = asciiText "status"
  status : List StringPiece
  statusValue : statusMember.value.value = quoted status
  plainStatus : Plain status
  chainsMember : Member
  isChainsMember : chainsMember ∈ object.members
  chainsName : decode chainsMember.name = asciiText "action_chains"
  chains : StringMatrix
  chainsValue : chainsMember.value.value = chains.text
  plainChains : ∀ chain ∈ chains.items, ∀ action ∈ chain, Plain action
  actions : ∀ member ∈ object.members, decode member.name = asciiText "actions" →
    ∃ array : StringArray, member.value.value = array.text

namespace ResponseText

def text (response : ResponseText) : Text := response.object.text

/-- The status and the action chains that the response encodes. -/
def body (response : ResponseText) : ResponseBody where
  status := decode response.status
  actionChains := response.chains.items.map (·.map decode)

/-- The names of the status and of the action chains have no unicode escapes. -/
def PlainNames (response : ResponseText) : Prop :=
  Plain response.statusMember.name ∧ Plain response.chainsMember.name

theorem eq_of_decode (response : ResponseText) {member other : Member} (isMember : member ∈ response.object.members)
    (isOther : other ∈ response.object.members) (sameName : decode member.name = decode other.name) :
    member = other :=
  List.inj_on_of_nodup_map response.distinct isMember isOther sameName

/-- What is known of the fields while some members remain. -/
structure Filled (response : ResponseText) (remaining : List Member) (fields : ResponseFields) : Prop where
  status : response.statusMember ∉ remaining → fields.status = some response.body.status
  chainsRead : response.chainsMember ∉ remaining → fields.actionChains = some response.body.actionChains
  chainsUnread : response.chainsMember ∈ remaining → fields.actionChains = none

variable {response : ResponseText} {member : Member} {remaining : List Member} {fields after : ResponseFields}

/-- A member with another name changes neither field. -/
theorem Filled.of_other (filled : response.Filled (member :: remaining) fields)
    (notStatus : decode member.name ≠ asciiText "status")
    (notChains : decode member.name ≠ asciiText "action_chains") (sameStatus : after.status = fields.status)
    (sameChains : after.actionChains = fields.actionChains) : response.Filled remaining after where
  status isRead := by
    have isOther : response.statusMember ≠ member := fun same => notStatus (same ▸ response.statusName)
    rw [sameStatus]
    exact filled.status (by simp [isOther, isRead])
  chainsRead isRead := by
    have isOther : response.chainsMember ≠ member := fun same => notChains (same ▸ response.chainsName)
    rw [sameChains]
    exact filled.chainsRead (by simp [isOther, isRead])
  chainsUnread isUnread := by
    rw [sameChains]
    exact filled.chainsUnread (List.mem_cons_of_mem _ isUnread)

theorem statusMember_ne_chainsMember (response : ResponseText) :
    response.statusMember ≠ response.chainsMember := by
  intro same
  have sameName := response.statusName
  rw [same, response.chainsName] at sameName
  revert sameName
  decide

theorem Filled.of_status (filled : response.Filled (response.statusMember :: remaining) fields) :
    response.Filled remaining { fields with status := some response.body.status } where
  status _ := rfl
  chainsRead isRead :=
    filled.chainsRead (by simp [response.statusMember_ne_chainsMember.symm, isRead])
  chainsUnread isUnread := filled.chainsUnread (List.mem_cons_of_mem _ isUnread)

theorem Filled.of_chains (filled : response.Filled (response.chainsMember :: remaining) fields)
    (notRemaining : response.chainsMember ∉ remaining) :
    response.Filled remaining { fields with actionChains := some response.body.actionChains } where
  status isRead := filled.status (by simp [response.statusMember_ne_chainsMember, isRead])
  chainsRead _ := rfl
  chainsUnread isUnread := absurd isUnread notRemaining

theorem map_scanned (response : ResponseText) :
    response.chains.items.map (·.map scanned) = response.body.actionChains := by
  apply List.map_congr_left
  intro chain isChain
  apply List.map_congr_left
  intro action isAction
  exact scanned_of_plain (response.plainChains chain isChain action isAction)

/-- A name of a member without unicode escapes is the scanned one. -/
theorem scanned_name_iff (plain : response.PlainNames) (isMember : member ∈ response.object.members) :
    (scanned member.name = asciiText "status" ↔ member = response.statusMember) ∧
      (scanned member.name = asciiText "action_chains" ↔ member = response.chainsMember) := by
  constructor
  · constructor
    · intro isName
      have decoded := decode_of_scanned isName (by decide)
      exact response.eq_of_decode isMember response.isStatusMember (decoded.trans response.statusName.symm)
    · rintro rfl
      rw [scanned_of_plain plain.1, response.statusName]
  · constructor
    · intro isName
      have decoded := decode_of_scanned isName (by decide)
      exact response.eq_of_decode isMember response.isChainsMember (decoded.trans response.chainsName.symm)
    · rintro rfl
      rw [scanned_of_plain plain.2, response.chainsName]

/-- Each member can be read. -/
theorem exists_readMember (plain : response.PlainNames) (isMember : member ∈ response.object.members)
    (notRemaining : member ∉ remaining) (filled : response.Filled (member :: remaining) fields) :
    ∃ after, response.Filled remaining after ∧ ReadMember fields member after := by
  obtain ⟨isStatus, isChains⟩ := scanned_name_iff plain isMember
  by_cases status : member = response.statusMember
  · subst status
    have reads := @ReadMember.status fields _ _ (isStatus.mpr rfl) response.statusValue
    rw [scanned_of_plain response.plainStatus] at reads
    exact ⟨_, filled.of_status, reads⟩
  by_cases chains : member = response.chainsMember
  · subst chains
    have reads := @ReadMember.actionChains fields _ _ (isChains.mpr rfl) response.chainsValue
    rw [filled.chainsUnread (List.mem_cons_self ..), response.map_scanned] at reads
    exact ⟨_, filled.of_chains notRemaining, reads⟩
  -- another member sets at most the actions
  have notStatus : decode member.name ≠ asciiText "status" := fun isName =>
    status (response.eq_of_decode isMember response.isStatusMember (isName.trans response.statusName.symm))
  have notChains : decode member.name ≠ asciiText "action_chains" := fun isName =>
    chains (response.eq_of_decode isMember response.isChainsMember (isName.trans response.chainsName.symm))
  by_cases actions : scanned member.name = asciiText "actions"
  · obtain ⟨array, isArray⟩ := response.actions member isMember (decode_of_scanned actions (by decide))
    have reads := @ReadMember.actions fields _ _ actions isArray
    refine ⟨_, ?_, reads⟩
    exact filled.of_other notStatus notChains rfl rfl
  · refine ⟨_, filled.of_other notStatus notChains rfl rfl, .other ?_ (response.values member isMember)⟩
    simp only [List.map_cons, List.map_nil, List.mem_cons, List.not_mem_nil, or_false, not_or]
    exact ⟨isStatus.not.mpr status, actions, isChains.not.mpr chains⟩

theorem exists_readMembers (plain : response.PlainNames) {members : List Member}
    (areMembers : ∀ member ∈ members, member ∈ response.object.members) (distinct : members.Nodup)
    (filled : response.Filled members fields) :
    ∃ after, response.Filled [] after ∧ ReadMembers fields members after := by
  induction members generalizing fields with
  | nil => exact ⟨fields, filled, .nil⟩
  | cons member members inductionHypothesis =>
    rw [List.nodup_cons] at distinct
    rw [List.forall_mem_cons] at areMembers
    obtain ⟨between, filledBetween, first⟩ := exists_readMember plain areMembers.1 distinct.1 filled
    obtain ⟨after, filledAfter, rest⟩ := inductionHypothesis areMembers.2 distinct.2 filledBetween
    exact ⟨after, filledAfter, .cons first rest⟩

/-- A response whose names have no unicode escapes is decoded as it was encoded. -/
theorem parseResponseBody_text (response : ResponseText) (plain : response.PlainNames) :
    parseResponseBody response.text = .ok response.body := by
  have unread : response.Filled response.object.members ⟨none, none, none⟩ := by
    constructor
    · exact fun isRead => absurd response.isStatusMember isRead
    · exact fun isRead => absurd response.isChainsMember isRead
    · exact fun _ => rfl
  obtain ⟨after, filled, reads⟩ := exists_readMembers plain (fun _ isMember => isMember)
    (List.Nodup.of_map _ response.distinct) unread
  have chains := filled.chainsRead List.not_mem_nil
  have parses := parseResponseBody_object reads (filled.status List.not_mem_nil) (by simp [chains])
  rwa [chains] at parses

theorem blank_nil : ∀ byte ∈ ([] : Text), byte ∈ ([0x20, 0x09, 0x0A, 0x0D] : Text) := by decide

/-- An answer with one chain, under a given spelling of the name of the status. -/
def answer (statusName : List StringPiece) (isName : decode statusName = asciiText "status") : ResponseText :=
  let none : Whitespace := ⟨[], blank_nil⟩
  let status : Member := ⟨none, statusName, none, none, quoted (encode (asciiText "ok")), none⟩
  let chains : StringMatrix := .rows (none, .strings (none, encode (asciiText "(load \"a\")"), none) [], none) []
  let chainsMember : Member := ⟨none, encode (asciiText "action_chains"), none, none, chains.text, none⟩
  { object := ⟨none, status, [chainsMember], none⟩
    values := by
      simp only [ObjectText.members, List.forall_mem_cons]
      exact ⟨.string _, chains.isValue, fun _ isMember => absurd isMember List.not_mem_nil⟩
    distinct := by
      simp only [ObjectText.DistinctNames, ObjectText.members, List.map_cons, List.map_nil, status, isName]
      decide
    statusMember := status
    isStatusMember := List.mem_cons_self ..
    statusName := isName
    status := encode (asciiText "ok")
    statusValue := rfl
    plainStatus := by decide
    chainsMember := chainsMember
    isChainsMember := by simp [ObjectText.members]
    chainsName := decode_encode _
    chains := chains
    chainsValue := rfl
    plainChains := by decide
    actions := by
      simp only [ObjectText.members, List.forall_mem_cons, status, chainsMember, isName, decode_encode]
      exact ⟨fun isActions => absurd isActions (by decide), fun isActions => absurd isActions (by decide),
        fun _ isMember => absurd isMember List.not_mem_nil⟩ }

theorem parseResponseBody_answer :
    parseResponseBody (answer (encode (asciiText "status")) (decode_encode _)).text =
      .ok ⟨asciiText "ok", [[asciiText "(load \"a\")"]]⟩ :=
  (answer (encode (asciiText "status")) (decode_encode _)).parseResponseBody_text ⟨by decide, by decide⟩

/-- The name of the status with an escaped letter. -/
def escapedStatus : List StringPiece :=
  encode (asciiText "st") ++ .unicode (hexDigit 0) (hexDigit 0) (hexDigit 6) (hexDigit 1) ::
    encode (asciiText "tus")

/-- The scanner does not decode unicode escapes, so it misses a status under an escaped name. -/
theorem not_parseResponseBody_text :
    ¬ ∀ response : ResponseText, parseResponseBody response.text = .ok response.body := by
  intro decodes
  have answered := decodes (answer escapedStatus (by decide))
  revert answered
  decide +kernel

end ResponseText

end CutPlan.Search
