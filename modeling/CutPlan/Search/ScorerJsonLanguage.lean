import CutPlan.Search.ScorerJsonTokens

/-! # The language of the scorer's JSON parser

The parser accepts the texts that denote something, and returns what they denote.
-/

namespace CutPlan.Search.JsonParser

open CutPlan.Lib CutPlan.Lib.Json

/-! ## Between the values -/

theorem follows_cons (space : Whitespace) {ch : UInt8} (ends : ch ∉ asciiText "0123456789.eE") (text : Text) :
    Follows (space.1 ++ ch :: text) := by
  obtain ⟨bytes, areSpace⟩ := space
  intro byte isHead
  cases bytes with
  | nil =>
    rw [List.nil_append, List.head?_cons, Option.mem_some_iff] at isHead
    rwa [← isHead]
  | cons first bytes =>
    have spaces : ∀ byte ∈ ([0x20, 0x09, 0x0A, 0x0D] : Text), byte ∉ asciiText "0123456789.eE" := by decide
    rw [List.cons_append, List.head?_cons, Option.mem_some_iff] at isHead
    subst isHead
    exact spaces _ (areSpace _ List.mem_cons_self)

theorem follows_space (space : Whitespace) : Follows space.1 := by
  obtain ⟨bytes, areSpace⟩ := space
  intro byte isHead
  have spaces : ∀ byte ∈ ([0x20, 0x09, 0x0A, 0x0D] : Text), byte ∉ asciiText "0123456789.eE" := by decide
  exact spaces byte (areSpace byte (List.mem_of_mem_head? isHead))

/-- A value starts with a character that starts no whitespace and closes nothing. -/
theorem denotes_head {levels : ℕ} {body : Text} {value : JsonValue} (denotes : Denotes doubleOf levels body value) :
    ∃ ch text, body = ch :: text ∧ isWhitespace ch = false ∧ ch ≠ ascii ']' := by
  cases denotes with
  | null => exact ⟨_, _, rfl, by decide, by decide⟩
  | bool value => cases value <;> exact ⟨_, _, rfl, by decide, by decide⟩
  | string => exact ⟨_, _, rfl, by decide, by decide⟩
  | emptyArray => exact ⟨_, _, rfl, by decide, by decide⟩
  | array => exact ⟨_, _, rfl, by decide, by decide⟩
  | emptyObject => exact ⟨_, _, rfl, by decide, by decide⟩
  | object => exact ⟨_, _, rfl, by decide, by decide⟩
  | @number levels number =>
    have digits : ∀ byte ∈ asciiText "0123456789", isWhitespace byte = false ∧ byte ≠ ascii ']' := by decide
    obtain ⟨negative, ⟨integer, ⟨nonempty, areDigits⟩, _⟩, fraction, exponent⟩ := number
    rw [NumberText.text_eq]
    cases negative with
    | true => exact ⟨_, _, rfl, by decide, by decide⟩
    | false =>
      cases integer with
      | nil => exact absurd rfl nonempty
      | cons ch integer => exact ⟨_, _, rfl, digits ch (areDigits ch List.mem_cons_self)⟩

theorem skipWhitespace_value {levels : ℕ} {body : Text} {value : JsonValue}
    (denotes : Denotes doubleOf levels body value) (space : Whitespace) (rest : Text) :
    skipWhitespace (space.1 ++ (body ++ rest)) = body ++ rest := by
  obtain ⟨ch, text, rfl, notSpace, _⟩ := denotes_head denotes
  rw [skipWhitespace_append, List.cons_append, skipWhitespace_cons notSpace]

theorem commaSeparated_map {β : Type} (itemText : β → Text) (first second : β) (rest : List β) :
    commaSeparated ((first :: second :: rest).map itemText) =
      itemText first ++ ascii ',' :: commaSeparated ((second :: rest).map itemText) :=
  commaSeparated_cons _ _ _

/-! ## Elements -/

/-- What a parser of values reads, denotes the value after whitespace. -/
def Sound (parse : Text → Except Failure (JsonValue × Text)) (levels : ℕ) : Prop :=
  ∀ text value rest, parse text = .ok (value, rest) →
    ∃ body, skipWhitespace text = body ++ rest ∧ Denotes doubleOf levels body value

/-- A parser of values reads what denotes a value after whitespace. -/
def Complete (parse : Text → Except Failure (JsonValue × Text)) (levels : ℕ) : Prop :=
  ∀ text body value rest, skipWhitespace text = body ++ rest → Denotes doubleOf levels body value →
    Follows rest → parse text = .ok (value, rest)

section Containers

variable {parseNested : Text → Except Failure (JsonValue × Text)} {levels : ℕ}

/-- The whitespace around a value that was read. -/
theorem Sound.padded (sound : Sound parseNested levels) {before text rest after : Text} {value : JsonValue}
    {delimiter : UInt8} (reads : parseNested text = .ok (value, rest))
    (sameText : skipWhitespace before = skipWhitespace text) (ends : skipWhitespace rest = delimiter :: after) :
    ∃ padded : Padded, before = padded.text ++ delimiter :: after ∧ Denotes doubleOf levels padded.value value := by
  obtain ⟨body, isText, denotes⟩ := sound text value rest reads
  obtain ⟨space, isBefore⟩ := exists_skipWhitespace before
  obtain ⟨spaceAfter, isRest⟩ := exists_skipWhitespace rest
  refine ⟨⟨space, body, spaceAfter⟩, ?_, denotes⟩
  rw [isBefore, sameText, isText, isRest, ends, Padded.text]
  simp only [List.append_assoc]

theorem parseElements_sound (sound : Sound parseNested levels) {fuel : ℕ} {values result : List JsonValue}
    {text rest : Text} (reads : parseElements parseNested fuel values text = .ok (result, rest))
    {before : Text} (sameText : skipWhitespace before = skipWhitespace text) :
    ∃ (first : Padded × JsonValue) (elements : List (Padded × JsonValue)),
      before = commaSeparated ((first :: elements).map fun element => element.1.text) ++ ascii ']' :: rest ∧
      (∀ element ∈ first :: elements, Denotes doubleOf levels element.1.value element.2) ∧
      result = values ++ (first :: elements).map Prod.snd := by
  induction fuel generalizing values text before with
  | zero => exact absurd reads fail_ne_ok
  | succ fuel inductionHypothesis =>
    rw [parseElements] at reads
    obtain ⟨⟨value, middle⟩, readsValue, reads⟩ := bind_eq_ok.mp reads
    simp only at reads
    split at reads
    case h_1 => exact absurd reads fail_ne_ok
    case h_2 delimiter after ends =>
      obtain ⟨padded, isBefore, denotes⟩ := sound.padded readsValue sameText ends
      split at reads
      case isTrue isClose =>
        cases reads
        refine ⟨(padded, value), [], ?_, by simpa using denotes, rfl⟩
        rw [isBefore, isClose, List.map_singleton, commaSeparated_singleton]
      case isFalse =>
        split at reads
        case isTrue => exact absurd reads fail_ne_ok
        case isFalse isComma =>
          obtain ⟨second, elements, isAfter, denoteAll, isResult⟩ :=
            inductionHypothesis reads (skipWhitespace_idem after).symm
          refine ⟨(padded, value), second :: elements, ?_, ?_, by simp [isResult]⟩
          · rw [isBefore, not_not.mp isComma, isAfter, commaSeparated_map, List.append_assoc, List.cons_append]
          · rw [List.forall_mem_cons]
            exact ⟨denotes, denoteAll⟩

theorem parseElements_complete (complete : Complete parseNested levels) {fuel : ℕ} (values : List JsonValue)
    {first : Padded × JsonValue} {elements : List (Padded × JsonValue)}
    (denotes : ∀ element ∈ first :: elements, Denotes doubleOf levels element.1.value element.2) {text : Text}
    (rest : Text) (isText : skipWhitespace text = skipWhitespace
      (commaSeparated ((first :: elements).map fun element => element.1.text) ++ ascii ']' :: rest))
    (enough : elements.length < fuel) :
    parseElements parseNested fuel values text = .ok (values ++ (first :: elements).map Prod.snd, rest) := by
  induction elements generalizing fuel values first text with
  | nil =>
    obtain ⟨fuel, rfl⟩ : ∃ less, fuel = less + 1 := ⟨fuel - 1, by rw [List.length_nil] at enough; omega⟩
    have denotesFirst := denotes first List.mem_cons_self
    rw [List.map_singleton, commaSeparated_singleton, Padded.text, List.append_assoc, List.append_assoc,
      skipWhitespace_value denotesFirst] at isText
    rw [parseElements, complete _ _ _ _ isText denotesFirst (follows_cons _ (by decide) _), ok_bind]
    simp only [skipWhitespace_append, skipWhitespace_cons (show isWhitespace (ascii ']') = false by decide)]
    rfl
  | cons second elements inductionHypothesis =>
    rw [List.length_cons] at enough
    obtain ⟨fuel, rfl⟩ : ∃ less, fuel = less + 1 := ⟨fuel - 1, by omega⟩
    rw [List.forall_mem_cons] at denotes
    rw [commaSeparated_map, Padded.text, List.append_assoc, List.append_assoc, List.append_assoc,
      skipWhitespace_value denotes.1] at isText
    rw [parseElements, complete _ _ _ _ isText denotes.1 (follows_cons _ (by decide) _), ok_bind]
    simp only [List.cons_append, skipWhitespace_append,
      skipWhitespace_cons (show isWhitespace (ascii ',') = false by decide)]
    rw [if_neg (by decide), if_neg (by simp),
      inductionHypothesis (values ++ [first.2]) denotes.2 (skipWhitespace_idem _) (by omega)]
    simp

theorem length_commaSeparated (first : Text) (rest : List Text) :
    rest.length ≤ (commaSeparated (first :: rest)).length := by
  induction rest generalizing first with
  | nil => exact Nat.zero_le _
  | cons second rest inductionHypothesis =>
    have shorter := inductionHypothesis second
    rw [commaSeparated_cons, List.length_append, List.length_cons, List.length_cons]
    omega

theorem parseArray_sound (sound : Sound parseNested levels) {text rest : Text} {value : JsonValue}
    (reads : parseArray parseNested text = .ok (value, rest)) :
    ∃ body, ascii '[' :: text = body ++ rest ∧ Denotes doubleOf (levels + 1) body value := by
  rw [parseArray] at reads
  split at reads
  case isTrue isClose =>
    obtain ⟨space, isText⟩ := exists_skipWhitespace text
    cases skipped : skipWhitespace text with
    | nil => simp [skipped] at isClose
    | cons ch after =>
      rw [skipped, List.head?_cons, Option.some_inj] at isClose
      rw [skipped] at reads isText
      cases reads
      exact ⟨_, by rw [isText, isClose]; simp, .emptyArray space⟩
  case isFalse =>
    obtain ⟨⟨values, after⟩, readsElements, reads⟩ := bind_eq_ok.mp reads
    cases reads
    obtain ⟨first, elements, isText, denotes, isResult⟩ :=
      parseElements_sound sound readsElements (skipWhitespace_idem text).symm
    rw [isResult, List.nil_append]
    exact ⟨_, by rw [isText]; simp, .array denotes⟩

theorem parseArray_complete (complete : Complete parseNested levels) {first : Padded × JsonValue}
    {elements : List (Padded × JsonValue)}
    (denotes : ∀ element ∈ first :: elements, Denotes doubleOf levels element.1.value element.2) (rest : Text) :
    parseArray parseNested
        (commaSeparated ((first :: elements).map fun element => element.1.text) ++ ascii ']' :: rest) =
      .ok (.array ((first :: elements).map Prod.snd), rest) := by
  obtain ⟨tail, isTail⟩ := exists_commaSeparated first.1.text (elements.map fun element => element.1.text)
  have denotesFirst := denotes first List.mem_cons_self
  obtain ⟨ch, body, isBody, notSpace, notClose⟩ := denotes_head denotesFirst
  have notEmpty : (skipWhitespace (commaSeparated ((first :: elements).map fun element => element.1.text) ++
      ascii ']' :: rest)).head? ≠ some (ascii ']') := by
    rw [List.map_cons, isTail, Padded.text, List.append_assoc, List.append_assoc, List.append_assoc,
      skipWhitespace_value denotesFirst, isBody]
    simpa using notClose
  have longer := length_commaSeparated first.1.text (elements.map fun element => element.1.text)
  rw [List.length_map] at longer
  rw [parseArray, if_neg notEmpty, parseElements_complete complete [] denotes rest (skipWhitespace_idem _) (by
    rw [List.length_append, List.length_cons, List.map_cons]
    omega)]
  rfl

/-! ## Members -/

theorem parseColon_sound {text rest : Text} (reads : parseColon text = .ok rest) :
    ∃ space : Whitespace, text = space.1 ++ ascii ':' :: rest := by
  obtain ⟨space, isText⟩ := exists_skipWhitespace text
  rw [parseColon] at reads
  split at reads
  case h_1 => exact absurd reads fail_ne_ok
  case h_2 ch after skipped =>
    split at reads
    case isTrue isColon =>
      cases reads
      exact ⟨space, by rw [← isColon, ← skipped]; exact isText⟩
    case isFalse => exact absurd reads fail_ne_ok

theorem parseColon_complete (space : Whitespace) (rest : Text) :
    parseColon (space.1 ++ ascii ':' :: rest) = .ok rest := by
  rw [parseColon, skipWhitespace_append, skipWhitespace_cons (by decide)]
  rfl

theorem skipWhitespace_quoted (space : Whitespace) (pieces : List StringPiece) (rest : Text) :
    skipWhitespace (space.1 ++ (quoted pieces ++ rest)) = quoted pieces ++ rest := by
  rw [skipWhitespace_append, quoted, List.cons_append, List.cons_append]
  exact skipWhitespace_cons (by decide) _

abbrev memberNames (members : List (Member × JsonValue)) : List Text := members.map fun member => decode member.1.name

abbrev memberValues (members : List (Member × JsonValue)) : List (Text × JsonValue) :=
  members.map fun member => (decode member.1.name, member.2)

theorem parseMembers_sound (sound : Sound parseNested levels) {fuel : ℕ} {values result : List (Text × JsonValue)}
    {text rest : Text} (reads : parseMembers parseNested fuel values text = .ok (result, rest))
    (distinct : (values.map Prod.fst).Nodup) {before : Text} (sameText : skipWhitespace before = skipWhitespace text) :
    ∃ (first : Member × JsonValue) (members : List (Member × JsonValue)),
      before = commaSeparated ((first :: members).map fun member => member.1.text) ++ ascii '}' :: rest ∧
      (∀ member ∈ first :: members, Paired member.1.name) ∧
      (∀ member ∈ first :: members, Denotes doubleOf levels member.1.value.value member.2) ∧
      (values.map Prod.fst ++ memberNames (first :: members)).Nodup ∧
      result = values ++ memberValues (first :: members) := by
  induction fuel generalizing values text before with
  | zero => exact absurd reads fail_ne_ok
  | succ fuel inductionHypothesis =>
    rw [parseMembers] at reads
    obtain ⟨⟨key, afterKey⟩, readsKey, reads⟩ := bind_eq_ok.mp reads
    obtain ⟨afterColon, readsColon, reads⟩ := bind_eq_ok.mp reads
    obtain ⟨⟨value, afterValue⟩, readsValue, reads⟩ := bind_eq_ok.mp reads
    simp only at reads
    split at reads
    case isTrue => cases reads
    case isFalse newKey =>
      split at reads
      case h_1 => exact absurd reads fail_ne_ok
      case h_2 delimiter after ends =>
        obtain ⟨pieces, paired, isKeyText, isKey⟩ := parseString_sound readsKey
        obtain ⟨beforeColon, isColonText⟩ := parseColon_sound readsColon
        obtain ⟨padded, isValueText, denotes⟩ :=
          sound.padded readsValue (skipWhitespace_idem afterColon).symm ends
        obtain ⟨space, isBefore⟩ := exists_skipWhitespace before
        have extended : (values.map Prod.fst ++ [key]).Nodup :=
          List.Nodup.append distinct (List.nodup_singleton key) (by simpa using newKey)
        have isMember : before = (Member.mk space pieces beforeColon padded).text ++ delimiter :: after := by
          rw [isBefore, sameText, isKeyText, isColonText, isValueText, Member.text]
          simp only [List.append_assoc, List.cons_append]
        split at reads
        case isTrue isClose =>
          cases reads
          refine ⟨(⟨space, pieces, beforeColon, padded⟩, value), [], ?_, by simpa using paired, by simpa using denotes,
            by simpa [isKey] using extended, by simp [isKey]⟩
          rw [isMember, isClose, List.map_singleton, commaSeparated_singleton]
        case isFalse =>
          split at reads
          case isTrue => exact absurd reads fail_ne_ok
          case isFalse isComma =>
            obtain ⟨second, members, isAfter, pairedAll, denoteAll, distinctAll, isResult⟩ :=
              inductionHypothesis reads (by simpa using extended) (skipWhitespace_idem after).symm
            refine ⟨(⟨space, pieces, beforeColon, padded⟩, value), second :: members, ?_, ?_, ?_, ?_, ?_⟩
            · rw [isMember, not_not.mp isComma, isAfter, commaSeparated_map, List.append_assoc, List.cons_append]
            · rw [List.forall_mem_cons]
              exact ⟨paired, pairedAll⟩
            · rw [List.forall_mem_cons]
              exact ⟨denotes, denoteAll⟩
            · simpa [isKey] using distinctAll
            · simp [isResult, isKey]

theorem parseMembers_complete (complete : Complete parseNested levels) {fuel : ℕ}
    (values : List (Text × JsonValue)) {first : Member × JsonValue} {members : List (Member × JsonValue)}
    (paired : ∀ member ∈ first :: members, Paired member.1.name)
    (denotes : ∀ member ∈ first :: members, Denotes doubleOf levels member.1.value.value member.2)
    (distinct : (values.map Prod.fst ++ memberNames (first :: members)).Nodup) {text : Text} (rest : Text)
    (isText : skipWhitespace text = skipWhitespace
      (commaSeparated ((first :: members).map fun member => member.1.text) ++ ascii '}' :: rest))
    (enough : members.length < fuel) :
    parseMembers parseNested fuel values text = .ok (values ++ memberValues (first :: members), rest) := by
  have newKey : decode first.1.name ∉ values.map Prod.fst := fun isOld =>
    (List.disjoint_of_nodup_append distinct) isOld List.mem_cons_self
  have denotesFirst := denotes first List.mem_cons_self
  induction members generalizing fuel values first text with
  | nil =>
    obtain ⟨fuel, rfl⟩ : ∃ less, fuel = less + 1 := ⟨fuel - 1, by rw [List.length_nil] at enough; omega⟩
    have isStart : skipWhitespace text = quoted first.1.name ++ (first.1.beforeColon.1 ++ ascii ':' ::
        (first.1.value.before.1 ++ (first.1.value.value ++ (first.1.value.after.1 ++ ascii '}' :: rest)))) := by
      rw [isText, List.map_singleton, commaSeparated_singleton, Member.text, Padded.text]
      simp only [List.append_assoc, List.cons_append, skipWhitespace_quoted]
    rw [parseMembers, isStart, parseString_complete (paired first List.mem_cons_self), ok_bind]
    simp only
    rw [parseColon_complete, ok_bind, complete _ _ _ _ (by rw [skipWhitespace_idem, skipWhitespace_value denotesFirst])
      denotesFirst (follows_cons _ (by decide) _), ok_bind]
    simp only [skipWhitespace_append, skipWhitespace_cons (show isWhitespace (ascii '}') = false by decide)]
    rw [if_neg newKey]
    rfl
  | cons second members inductionHypothesis =>
    rw [List.length_cons] at enough
    obtain ⟨fuel, rfl⟩ : ∃ less, fuel = less + 1 := ⟨fuel - 1, by omega⟩
    have isStart : skipWhitespace text = quoted first.1.name ++ (first.1.beforeColon.1 ++ ascii ':' ::
        (first.1.value.before.1 ++ (first.1.value.value ++ (first.1.value.after.1 ++ ascii ',' ::
          (commaSeparated ((second :: members).map fun member => member.1.text) ++ ascii '}' :: rest))))) := by
      rw [isText, commaSeparated_map, Member.text, Padded.text]
      simp only [List.append_assoc, List.cons_append, skipWhitespace_quoted]
    rw [parseMembers, isStart, parseString_complete (paired first List.mem_cons_self), ok_bind]
    simp only
    rw [parseColon_complete, ok_bind, complete _ _ _ _ (by rw [skipWhitespace_idem, skipWhitespace_value denotesFirst])
      denotesFirst (follows_cons _ (by decide) _), ok_bind]
    simp only [skipWhitespace_append, skipWhitespace_cons (show isWhitespace (ascii ',') = false by decide)]
    rw [List.forall_mem_cons] at paired denotes
    have distinctRest : ((values ++ [(decode first.1.name, first.2)]).map Prod.fst ++
        memberNames (second :: members)).Nodup := by simpa using distinct
    rw [if_neg newKey, if_neg (by decide), if_neg (by simp),
      inductionHypothesis _ paired.2 denotes.2 distinctRest (skipWhitespace_idem _) (by omega)
        (fun isOld => (List.disjoint_of_nodup_append distinctRest) isOld List.mem_cons_self)
        (denotes.2 second List.mem_cons_self)]
    simp

theorem parseObject_sound (sound : Sound parseNested levels) {text rest : Text} {value : JsonValue}
    (reads : parseObject parseNested text = .ok (value, rest)) :
    ∃ body, ascii '{' :: text = body ++ rest ∧ Denotes doubleOf (levels + 1) body value := by
  rw [parseObject] at reads
  split at reads
  case isTrue isClose =>
    obtain ⟨space, isText⟩ := exists_skipWhitespace text
    cases skipped : skipWhitespace text with
    | nil => simp [skipped] at isClose
    | cons ch after =>
      rw [skipped, List.head?_cons, Option.some_inj] at isClose
      rw [skipped] at reads isText
      cases reads
      exact ⟨_, by rw [isText, isClose]; simp, .emptyObject space⟩
  case isFalse =>
    obtain ⟨⟨values, after⟩, readsMembers, reads⟩ := bind_eq_ok.mp reads
    cases reads
    obtain ⟨first, members, isText, paired, denotes, distinct, isResult⟩ :=
      parseMembers_sound sound readsMembers List.nodup_nil (skipWhitespace_idem text).symm
    rw [isResult, List.nil_append]
    exact ⟨_, by rw [isText]; simp, .object paired denotes distinct⟩

theorem parseObject_complete (complete : Complete parseNested levels) {first : Member × JsonValue}
    {members : List (Member × JsonValue)} (paired : ∀ member ∈ first :: members, Paired member.1.name)
    (denotes : ∀ member ∈ first :: members, Denotes doubleOf levels member.1.value.value member.2)
    (distinct : (memberNames (first :: members)).Nodup) (rest : Text) :
    parseObject parseNested
        (commaSeparated ((first :: members).map fun member => member.1.text) ++ ascii '}' :: rest) =
      .ok (.object (memberValues (first :: members)), rest) := by
  obtain ⟨tail, isTail⟩ := exists_commaSeparated first.1.text (members.map fun member => member.1.text)
  have notEmpty : (skipWhitespace (commaSeparated ((first :: members).map fun member => member.1.text) ++
      ascii '}' :: rest)).head? ≠ some (ascii '}') := by
    rw [List.map_cons, isTail, Member.text]
    simp only [List.append_assoc, skipWhitespace_quoted]
    simp only [quoted, List.cons_append, List.head?_cons]
    decide
  have longer := length_commaSeparated first.1.text (members.map fun member => member.1.text)
  rw [List.length_map] at longer
  rw [parseObject, if_neg notEmpty, parseMembers_complete complete [] paired denotes distinct rest
    (skipWhitespace_idem _) (by
      rw [List.length_append, List.length_cons, List.map_cons]
      omega)]
  rfl

end Containers

/-! ## Values -/

/-- What parses the values inside of a container, where containers may still be opened. -/
def nestedParser : ℕ → Option (Text → Except Failure (JsonValue × Text))
  | 0 => none
  | levels + 1 => some (parseValue levels)

theorem parseValue_eq (levels : ℕ) : parseValue levels = parseValueWith (nestedParser levels) := by
  cases levels <;> rfl

theorem take_eq_literal (literal : Text) {text : Text} (isLiteral : text.take literal.length = literal) :
    text = literal ++ text.drop literal.length := by
  rw [← isLiteral, List.length_take, ← isLiteral, List.length_take]
  simp

theorem parseContainer_sound {parse : (Text → Except Failure (JsonValue × Text)) → Text → Except Failure (JsonValue × Text)}
    {levels : ℕ} {text rest : Text} {value : JsonValue} {bracket : UInt8}
    (reads : parseContainer parse (nestedParser levels) text = .ok (value, rest))
    (sound : ∀ lower, levels = lower + 1 → parse (parseValue lower) text = .ok (value, rest) →
      ∃ body, bracket :: text = body ++ rest ∧ Denotes doubleOf (lower + 1) body value) :
    ∃ body, bracket :: text = body ++ rest ∧ Denotes doubleOf levels body value := by
  cases levels with
  | zero => exact absurd reads fail_ne_ok
  | succ lower => exact sound lower rfl reads

theorem parseValue_sound (levels : ℕ) : Sound (parseValue levels) levels := by
  induction levels using Nat.strong_induction_on with
  | _ levels inductionHypothesis =>
    intro text value rest reads
    rw [parseValue_eq, parseValueWith] at reads
    split at reads
    case h_1 => exact absurd reads fail_ne_ok
    case h_2 ch text skipped =>
      rw [skipped]
      split at reads
      case isTrue =>
        obtain ⟨⟨result, after⟩, readsString, reads⟩ := bind_eq_ok.mp reads
        obtain ⟨pieces, paired, isText, isResult⟩ := parseString_sound readsString
        cases reads
        exact ⟨_, isText, isResult ▸ .string paired⟩
      case isFalse =>
        split at reads
        case isTrue isBrace =>
          rw [isBrace]
          apply parseContainer_sound reads
          intro lower isLevels readsObject
          exact parseObject_sound (inductionHypothesis lower (by omega)) readsObject
        case isFalse =>
          split at reads
          case isTrue isBracket =>
            rw [isBracket]
            apply parseContainer_sound reads
            intro lower isLevels readsArray
            exact parseArray_sound (inductionHypothesis lower (by omega)) readsArray
          case isFalse =>
            split at reads
            case isTrue =>
              obtain ⟨number, double, isText, isDouble, rfl⟩ := parseNumber_sound reads
              exact ⟨_, isText, .number isDouble⟩
            case isFalse =>
              split at reads
              case isTrue isLiteral =>
                cases reads
                exact ⟨_, take_eq_literal (asciiText "true") isLiteral, .bool true⟩
              case isFalse =>
                split at reads
                case isTrue isLiteral =>
                  cases reads
                  exact ⟨_, take_eq_literal (asciiText "false") isLiteral, .bool false⟩
                case isFalse =>
                  split at reads
                  case isTrue isLiteral =>
                    cases reads
                    exact ⟨_, take_eq_literal (asciiText "null") isLiteral, .null⟩
                  case isFalse => exact absurd reads fail_ne_ok

theorem parseValueWith_number {number : NumberText} {text rest : Text}
    (skipped : skipWhitespace text = number.text ++ rest)
    (parseNested : Option (Text → Except Failure (JsonValue × Text))) :
    parseValueWith parseNested text = parseNumber (number.text ++ rest) := by
  have digits : ∀ byte ∈ asciiText "0123456789", byte ≠ ascii '"' ∧ byte ≠ ascii '{' ∧ byte ≠ ascii '[' ∧
      isDigitByte byte = true := by decide
  obtain ⟨negative, ⟨integer, ⟨nonempty, areDigits⟩, noLeadingZero⟩, fraction, exponent⟩ := number
  rw [parseValueWith, skipped, NumberText.text_eq]
  cases negative with
  | true =>
    simp only [signText, if_true, List.cons_append]
    rw [if_neg (by decide), if_neg (by decide), if_neg (by decide), if_pos (.inl trivial)]
  | false =>
    cases integer with
    | nil => exact absurd rfl nonempty
    | cons ch integer =>
      obtain ⟨notQuote, notBrace, notBracket, isDigit⟩ := digits ch (areDigits ch List.mem_cons_self)
      simp only [signText, if_false, Bool.false_eq_true, List.nil_append, List.cons_append]
      rw [if_neg notQuote, if_neg notBrace, if_neg notBracket, if_pos (.inr isDigit)]

theorem parseValue_complete (levels : ℕ) : Complete (parseValue levels) levels := by
  induction levels using Nat.strong_induction_on with
  | _ levels inductionHypothesis =>
    intro text body value rest skipped denotes follows
    rw [parseValue_eq]
    cases denotes with
    | null =>
      rw [parseValueWith, skipped]
      rfl
    | bool value =>
      rw [parseValueWith, skipped]
      cases value <;> rfl
    | number inRange => rw [parseValueWith_number skipped, parseNumber_complete inRange follows]
    | string paired =>
      have reads := parseString_complete paired rest
      rw [quoted, List.cons_append, List.cons_append] at reads
      rw [parseValueWith, skipped, quoted, List.cons_append, List.cons_append]
      simp only [if_true, reads]
      rfl
    | @emptyArray lower space =>
      rw [parseValueWith, skipped]
      simp only [List.cons_append, List.append_assoc, List.nil_append]
      rw [if_neg (by decide), if_neg (by decide), if_pos trivial, nestedParser, parseContainer, parseArray]
      simp [skipWhitespace_cons (show isWhitespace (ascii ']') = false by decide)]
    | @array lower first elements denoteAll =>
      rw [parseValueWith, skipped]
      simp only [List.cons_append, List.append_assoc, List.nil_append]
      rw [if_neg (by decide), if_neg (by decide), if_pos trivial, nestedParser, parseContainer]
      exact parseArray_complete (inductionHypothesis lower (by omega)) denoteAll rest
    | @emptyObject lower space =>
      rw [parseValueWith, skipped]
      simp only [List.cons_append, List.append_assoc, List.nil_append]
      rw [if_neg (by decide), if_pos trivial, nestedParser, parseContainer, parseObject]
      simp [skipWhitespace_cons (show isWhitespace (ascii '}') = false by decide)]
    | @object lower first members paired denoteAll distinct =>
      rw [parseValueWith, skipped]
      simp only [List.cons_append, List.append_assoc, List.nil_append]
      rw [if_neg (by decide), if_pos trivial, nestedParser, parseContainer]
      exact parseObject_complete (inductionHypothesis lower (by omega)) paired denoteAll distinct rest

/-! ## The whole text -/

theorem parse_denotes {text : Text} {value : JsonValue} (parses : parse text = .ok value) :
    TextDenotes doubleOf nestingLimit text value := by
  rw [parse] at parses
  split at parses
  case h_1 => cases parses
  case h_2 result rest reads =>
    split at parses
    case isTrue atEnd =>
      cases parses
      obtain ⟨body, isText, denotes⟩ := parseValue_sound nestingLimit text value rest reads
      obtain ⟨before, isBefore⟩ := exists_skipWhitespace text
      obtain ⟨after, isAfter⟩ := exists_skipWhitespace rest
      refine ⟨⟨before, body, after⟩, ?_, denotes⟩
      rw [isBefore, isText, isAfter, atEnd, Padded.text]
      simp only [List.append_assoc, List.append_nil]
    case isFalse => cases parses

theorem denotes_parse {text : Text} {value : JsonValue} (denotes : TextDenotes doubleOf nestingLimit text value) :
    parse text = .ok value := by
  obtain ⟨⟨before, body, after⟩, rfl, denotes⟩ := denotes
  have skipped : skipWhitespace (before.1 ++ body ++ after.1) = body ++ after.1 := by
    rw [List.append_assoc, skipWhitespace_value denotes]
  have reads := parseValue_complete nestingLimit _ body value after.1 skipped denotes (follows_space after)
  rw [parse, Padded.text]
  simp only [reads, skipWhitespace_space, if_true]

/-- The parser accepts exactly the texts that denote a value, and returns that value. -/
theorem parse_eq_ok_iff (text : Text) (value : JsonValue) :
    parse text = .ok value ↔ TextDenotes doubleOf nestingLimit text value :=
  ⟨parse_denotes, denotes_parse⟩

/-! Bytes that are not ASCII stand for themselves in strings, in UTF-8 or not. -/

/-- The text is made of characters. -/
def IsUtf8 (text : Text) : Prop := ∃ characters : String, text = utf8Text characters

theorem utf8EncodeChar_lt (char : Char) : ∀ byte ∈ String.utf8EncodeChar char, byte.toNat < 0xFF := by
  fun_cases String.utf8EncodeChar char
  all_goals
    simp only [List.forall_mem_cons, UInt8.toNat_ofNat', Nat.reducePow, List.not_mem_nil, false_imp_iff,
      implies_true, and_true]
    omega

theorem not_isUtf8_of_mem {text : Text} (isByte : 0xFF ∈ text) : ¬ IsUtf8 text := by
  rintro ⟨characters, rfl⟩
  obtain ⟨char, _, isEncoded⟩ := List.mem_flatMap.mp isByte
  exact absurd (utf8EncodeChar_lt char 0xFF isEncoded) (by decide)

theorem invalidUtf8_accepted : ¬ ∀ text, (∃ value, parse text = .ok value) ↔
    IsUtf8 text ∧ ∃ value, TextDenotes doubleOf nestingLimit text value := by
  intro claimed
  have reads : parse [0x22, 0xFF, 0x22] = .ok (.string [0xFF]) := by rfl
  exact absurd ((claimed _).mp ⟨_, reads⟩).1 (not_isUtf8_of_mem (by decide))

end CutPlan.Search.JsonParser
