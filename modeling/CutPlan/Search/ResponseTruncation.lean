import CutPlan.Search.ResponseDecoding
import Mathlib.Data.List.DropRight

/-! # Truncated responses

A scanner that accepts a text reads the same from every longer text.  So a response that is cut off is not
accepted.
-/

namespace CutPlan.Search

open CutPlan.Lib.Json

/-- What `scan` reads from a text, `longer` reads from every longer text. -/
def Extends {α : Type} (scan longer : Text → Except String (α × Text)) : Prop :=
  ∀ text value rest, scan text = .ok (value, rest) → ∀ more, longer (text ++ more) = .ok (value, rest ++ more)

/-- The same for a function that only moves the position. -/
def SkipExtends (skip longer : Text → Except String Text) : Prop :=
  ∀ text rest, skip text = .ok rest → ∀ more, longer (text ++ more) = .ok (rest ++ more)

/-! ## Positions before the end -/

theorem skipJsonWhitespace_more {text rest : Text} {ch : UInt8} (starts : skipJsonWhitespace text = ch :: rest)
    (more : Text) : skipJsonWhitespace (text ++ more) = ch :: (rest ++ more) := by
  rw [skipJsonWhitespace] at starts ⊢
  rw [List.dropWhile_append, starts]
  rfl

theorem parseEmpty_more {close : UInt8} {text rest : Text} (isEmpty : parseEmpty close text = some rest)
    (more : Text) : parseEmpty close (text ++ more) = some (rest ++ more) := by
  rw [parseEmpty] at isEmpty ⊢
  cases starts : skipJsonWhitespace text with
  | nil => simp [starts] at isEmpty
  | cons ch after =>
    rw [skipJsonWhitespace_more starts]
    simp only [starts] at isEmpty ⊢
    split at isEmpty
    case isTrue same =>
      rw [if_pos same]
      simp_all
    case isFalse => cases isEmpty

theorem parseEmpty_none_more {close : UInt8} {text : Text} (notEmpty : parseEmpty close text = none)
    (inside : skipJsonWhitespace text ≠ []) (more : Text) : parseEmpty close (text ++ more) = none := by
  rw [parseEmpty] at notEmpty ⊢
  cases starts : skipJsonWhitespace text with
  | nil => exact absurd starts inside
  | cons ch after =>
    rw [skipJsonWhitespace_more starts]
    simp only [starts] at notEmpty ⊢
    split at notEmpty
    case isTrue => cases notEmpty
    case isFalse differs => rw [if_neg differs]

theorem skipJsonWhitespace_ne_nil_more {text : Text} (inside : skipJsonWhitespace text ≠ []) (more : Text) :
    skipJsonWhitespace (text ++ more) = skipJsonWhitespace text ++ more := by
  cases starts : skipJsonWhitespace text with
  | nil => exact absurd starts inside
  | cons ch after => exact skipJsonWhitespace_more starts more

theorem extends_parseSeparator (close : UInt8) (error : String) :
    Extends (parseSeparator close error) (parseSeparator close error) := by
  intro text separator rest reads more
  rw [parseSeparator] at reads ⊢
  cases starts : skipJsonWhitespace text with
  | nil => simp [starts] at reads
  | cons ch after =>
    rw [skipJsonWhitespace_more starts]
    simp only [starts] at reads ⊢
    split_ifs at reads ⊢ <;> simp_all

theorem extends_parseColon (error : String) : SkipExtends (parseColon error) (parseColon error) := by
  intro text rest reads more
  rw [parseColon] at reads ⊢
  cases starts : skipJsonWhitespace text with
  | nil => simp [starts] at reads
  | cons ch after =>
    rw [skipJsonWhitespace_more starts]
    simp only [starts] at reads ⊢
    split_ifs at reads ⊢
    simp_all

theorem extends_parseOpen (error : String) : SkipExtends (parseOpen error) (parseOpen error) := by
  intro text rest reads more
  rw [parseOpen] at reads ⊢
  cases starts : skipJsonWhitespace text with
  | nil => simp [starts] at reads
  | cons ch after =>
    rw [skipJsonWhitespace_more starts]
    simp only [starts] at reads ⊢
    split_ifs at reads ⊢
    simp_all

/-! ## Strings -/

theorem extends_parseStringBytes (result : Text) : Extends (parseStringBytes result) (parseStringBytes result) := by
  intro text value rest reads more
  fun_induction parseStringBytes result text with
  | case1 | case4 | case7 | case8 => cases reads
  | case2 result text =>
    cases reads
    exact parseStringBytes_quote value (rest ++ more)
  | case3 result ch text notQuote notEscape inductionHypothesis =>
    rw [List.cons_append, parseStringBytes.eq_def]
    simp only [notQuote, notEscape, if_false, if_true, ne_eq, not_false_eq_true]
    exact inductionHypothesis reads
  | case5 result ch notQuote isEscape escaped text value isShort inductionHypothesis =>
    rw [List.cons_append, List.cons_append, parseStringBytes.eq_def]
    simp only [notQuote, isEscape, isShort, if_false]
    exact inductionHypothesis reads
  | case6 result ch notQuote isEscape first second third fourth text noShort inductionHypothesis =>
    rw [ne_eq, not_not] at isEscape
    rw [isEscape]
    exact (parseStringBytes_unicode first second third fourth result (text ++ more)).trans (inductionHypothesis reads)

theorem extends_parseJsonString : Extends parseJsonString parseJsonString := by
  intro text value rest reads more
  rw [parseJsonString] at reads ⊢
  cases starts : skipJsonWhitespace text with
  | nil => simp [starts] at reads
  | cons ch after =>
    rw [skipJsonWhitespace_more starts]
    simp only [starts] at reads ⊢
    split_ifs at reads ⊢ with isQuote
    exact extends_parseStringBytes [] after value rest reads more


/-! ## Values that are skipped -/

/-- What is skipped with some fuel is skipped with more fuel and more text.  A number may go on, unless
something is left behind it. -/
structure SkipsMore (fuel longer : ℕ) : Prop where
  value : ∀ text rest, skipJsonValue fuel text = .ok rest → rest ≠ [] →
    ∀ more, skipJsonValue longer (text ++ more) = .ok (rest ++ more)
  elements : SkipExtends (skipElements fuel) (skipElements longer)
  members : SkipExtends (skipMembers fuel) (skipMembers longer)

theorem dropWhile_more {ends : UInt8 → Bool} {text : Text} (inside : text.dropWhile ends ≠ []) (more : Text) :
    (text ++ more).dropWhile ends = text.dropWhile ends ++ more := by
  rw [List.dropWhile_append]
  simp [inside]

theorem ne_nil_of_parseSeparator {close : UInt8} {error : String} {text rest : Text} {separator : Separator}
    (reads : parseSeparator close error text = .ok (separator, rest)) : text ≠ [] := by
  rintro rfl
  simp [parseSeparator, skipJsonWhitespace] at reads

theorem skipElements_nil (fuel : ℕ) (rest : Text) : skipElements fuel [] ≠ .ok rest := by
  cases fuel <;> simp [skipElements]

theorem skipMembers_nil (fuel : ℕ) (rest : Text) : skipMembers fuel [] ≠ .ok rest := by
  cases fuel <;> simp [skipMembers]

/-- The rest of a container, whether it is empty or not. -/
theorem skipContainer_more {close : UInt8} {loop longer : Text → Except String Text} (extended : SkipExtends loop longer)
    (needs : ∀ rest, loop [] ≠ .ok rest) :
    SkipExtends
      (fun text => match parseEmpty close text with
        | some text => .ok text
        | none => loop (skipJsonWhitespace text))
      (fun text => match parseEmpty close text with
        | some text => .ok text
        | none => longer (skipJsonWhitespace text)) := by
  intro text rest skips more
  dsimp only at skips ⊢
  cases isEmpty : parseEmpty close text with
  | some after =>
    rw [isEmpty] at skips
    rw [parseEmpty_more isEmpty]
    cases skips
    rfl
  | none =>
    rw [isEmpty] at skips
    dsimp only at skips
    have inside : skipJsonWhitespace text ≠ [] := by
      intro atEnd
      rw [atEnd] at skips
      exact needs rest skips
    rw [parseEmpty_none_more isEmpty inside, skipJsonWhitespace_ne_nil_more inside]
    exact extended _ _ skips more

theorem skipJsonValue_more {fuel longer : ℕ} (inner : SkipsMore fuel longer) {text rest : Text}
    (skips : skipJsonValue (fuel + 1) text = .ok rest) (inside : rest ≠ []) (more : Text) :
    skipJsonValue (longer + 1) (text ++ more) = .ok (rest ++ more) := by
  rw [skipJsonValue] at skips ⊢
  cases starts : skipJsonWhitespace text with
  | nil => simp [starts] at skips
  | cons ch after =>
    rw [skipJsonWhitespace_more starts]
    simp only [starts] at skips ⊢
    by_cases isString : ch = ascii '"'
    · rw [if_pos isString] at skips ⊢
      cases reads : parseJsonString (ch :: after) with
      | error error => simp [reads, Except.map] at skips
      | ok read =>
        obtain ⟨value, tail⟩ := read
        rw [← List.cons_append, extends_parseJsonString _ _ _ reads more]
        simp_all [Except.map]
    rw [if_neg isString] at skips ⊢
    by_cases isArray : ch = ascii '['
    · rw [if_pos isArray] at skips ⊢
      exact skipContainer_more inner.elements (skipElements_nil fuel) after rest skips more
    rw [if_neg isArray] at skips ⊢
    by_cases isObject : ch = ascii '{'
    · rw [if_pos isObject] at skips ⊢
      exact skipContainer_more inner.members (skipMembers_nil fuel) after rest skips more
    rw [if_neg isObject] at skips ⊢
    -- A number or a word ends where the text goes on.
    split at skips
    case isTrue => cases skips
    case isFalse goesOn =>
      rw [if_neg goesOn]
      cases skips
      exact congrArg Except.ok (dropWhile_more inside more)

theorem skipElements_more {fuel longer : ℕ} (inner : SkipsMore fuel longer) :
    SkipExtends (skipElements (fuel + 1)) (skipElements (longer + 1)) := by
  intro text rest skips more
  rw [skipElements] at skips ⊢
  split at skips
  case isTrue => cases skips
  case isFalse nonempty =>
    rw [if_neg (by simp [nonempty])]
    obtain ⟨middle, value, skips⟩ := bind_eq_ok.mp skips
    obtain ⟨⟨separator, after⟩, separates, skips⟩ := bind_eq_ok.mp skips
    have valueMore := inner.value text middle value (ne_nil_of_parseSeparator separates) more
    have separatesMore := extends_parseSeparator _ _ _ _ _ separates more
    rw [valueMore, ok_bind, separatesMore, ok_bind]
    cases separator with
    | comma => exact inner.elements after rest skips more
    | close =>
      cases skips
      rfl

theorem skipMembers_more {fuel longer : ℕ} (inner : SkipsMore fuel longer) :
    SkipExtends (skipMembers (fuel + 1)) (skipMembers (longer + 1)) := by
  intro text rest skips more
  rw [skipMembers] at skips ⊢
  split at skips
  case isTrue => cases skips
  case isFalse nonempty =>
    rw [if_neg (by simp [nonempty])]
    obtain ⟨⟨key, keyRest⟩, keyReads, skips⟩ := bind_eq_ok.mp skips
    obtain ⟨colonRest, colon, skips⟩ := bind_eq_ok.mp skips
    obtain ⟨middle, value, skips⟩ := bind_eq_ok.mp skips
    obtain ⟨⟨separator, after⟩, separates, skips⟩ := bind_eq_ok.mp skips
    have keyMore := extends_parseJsonString _ _ _ keyReads more
    have colonMore := extends_parseColon _ _ _ colon more
    have valueMore := inner.value _ _ value (ne_nil_of_parseSeparator separates) more
    have separatesMore := extends_parseSeparator _ _ _ _ _ separates more
    rw [keyMore, ok_bind]
    dsimp only
    rw [colonMore, ok_bind, valueMore, ok_bind, separatesMore, ok_bind]
    cases separator with
    | comma => exact inner.members after rest skips more
    | close =>
      cases skips
      rfl

theorem skipsMore {fuel longer : ℕ} (enough : fuel ≤ longer) : SkipsMore fuel longer := by
  induction fuel generalizing longer with
  | zero =>
    constructor
    · intro text rest skips
      simp [skipJsonValue] at skips
    · intro text rest skips
      simp [skipElements] at skips
    · intro text rest skips
      simp [skipMembers] at skips
  | succ fuel inductionHypothesis =>
    obtain ⟨longer, rfl⟩ := Nat.exists_eq_add_of_le' enough
    have inner : SkipsMore fuel (longer + fuel) := inductionHypothesis (by omega)
    exact ⟨fun _ _ skips inside more => skipJsonValue_more inner skips inside more, skipElements_more inner,
      skipMembers_more inner⟩

/-! ## Arrays of strings -/

theorem extends_parseItems {α : Type} {parseItem : Text → Except String (α × Text)}
    (item : Extends parseItem parseItem) (unterminated error : String) {fuel longer : ℕ} (enough : fuel ≤ longer)
    (result : List α) :
    Extends (parseItems parseItem unterminated error fuel result) (parseItems parseItem unterminated error longer result) := by
  induction fuel generalizing longer result with
  | zero =>
    intro text value rest reads
    simp [parseItems] at reads
  | succ fuel inductionHypothesis =>
    obtain ⟨longer, rfl⟩ := Nat.exists_eq_add_of_le' enough
    intro text value rest reads more
    rw [parseItems] at reads
    rw [← Nat.add_assoc, parseItems]
    split at reads
    case isTrue => cases reads
    case isFalse nonempty =>
      rw [if_neg (by simp [nonempty])]
      obtain ⟨⟨first, middle⟩, readsFirst, reads⟩ := bind_eq_ok.mp reads
      obtain ⟨⟨separator, after⟩, separates, reads⟩ := bind_eq_ok.mp reads
      have itemMore := item _ _ _ readsFirst more
      have separatesMore := extends_parseSeparator _ _ _ _ _ separates more
      rw [itemMore, ok_bind]
      dsimp only
      rw [separatesMore, ok_bind]
      cases separator with
      | comma => exact inductionHypothesis (by omega) _ _ _ _ reads more
      | close =>
        cases reads
        rfl

theorem parseItems_nil {α : Type} {parseItem : Text → Except String (α × Text)} {unterminated error : String}
    {fuel : ℕ} {result value : List α} {rest : Text} :
    parseItems parseItem unterminated error fuel result [] ≠ .ok (value, rest) := by
  cases fuel <;> simp [parseItems]

/-- Both kinds of arrays, with the fuel that each text gets. -/
theorem extends_array {α : Type} {parseItem : Text → Except String (α × Text)} (item : Extends parseItem parseItem)
    (notArray unterminated error : String) (result : List α) :
    let parse := fun text => do
      let text ← parseOpen notArray text
      match parseEmpty (ascii ']') text with
      | some text => return (result, text)
      | none => parseItems parseItem unterminated error (text.length + 1) result (skipJsonWhitespace text)
    Extends parse parse := by
  intro parse text value rest reads more
  obtain ⟨after, opens, reads⟩ := bind_eq_ok.mp reads
  have opensMore := extends_parseOpen _ _ _ opens more
  simp only [parse]
  rw [opensMore, ok_bind]
  cases isEmpty : parseEmpty (ascii ']') after with
  | some tail =>
    rw [parseEmpty_more isEmpty]
    rw [isEmpty] at reads
    cases reads
    rfl
  | none =>
    rw [isEmpty] at reads
    dsimp only at reads
    have inside : skipJsonWhitespace after ≠ [] := by
      intro atEnd
      rw [atEnd] at reads
      exact parseItems_nil reads
    rw [parseEmpty_none_more isEmpty inside, skipJsonWhitespace_ne_nil_more inside]
    exact extends_parseItems item _ _ (by simp) result _ _ _ reads more

theorem extends_parseJsonStringArray (result : List Text) :
    Extends (parseJsonStringArray result) (parseJsonStringArray result) :=
  extends_array extends_parseJsonString _ _ _ result

theorem extends_parseJsonStringMatrix (result : List (List Text)) :
    Extends (parseJsonStringMatrix result) (parseJsonStringMatrix result) :=
  extends_array (extends_parseJsonStringArray []) _ _ _ result

/-! ## The response -/

theorem parseField_more {fields after : ResponseFields} {key text rest : Text}
    (reads : parseField fields key text = .ok (after, rest)) (inside : rest ≠ []) (more : Text) :
    parseField fields key (text ++ more) = .ok (after, rest ++ more) := by
  rw [parseField] at reads ⊢
  by_cases isStatus : key = asciiText "status"
  · rw [if_pos isStatus] at reads ⊢
    obtain ⟨⟨status, tail⟩, readsStatus, reads⟩ := bind_eq_ok.mp reads
    have statusMore := extends_parseJsonString _ _ _ readsStatus more
    rw [statusMore, ok_bind]
    cases reads
    rfl
  rw [if_neg isStatus] at reads ⊢
  by_cases isActions : key = asciiText "actions"
  · rw [if_pos isActions] at reads ⊢
    obtain ⟨⟨actions, tail⟩, readsActions, reads⟩ := bind_eq_ok.mp reads
    have actionsMore := extends_parseJsonStringArray _ _ _ _ readsActions more
    rw [actionsMore, ok_bind]
    cases reads
    rfl
  rw [if_neg isActions] at reads ⊢
  by_cases isChains : key = asciiText "action_chains"
  · rw [if_pos isChains] at reads ⊢
    obtain ⟨⟨actionChains, tail⟩, readsChains, reads⟩ := bind_eq_ok.mp reads
    have chainsMore := extends_parseJsonStringMatrix _ _ _ _ readsChains more
    rw [chainsMore, ok_bind]
    cases reads
    rfl
  rw [if_neg isChains] at reads ⊢
  obtain ⟨tail, skips, reads⟩ := bind_eq_ok.mp reads
  cases reads
  have enough : 2 * text.length + 2 ≤ 2 * (text ++ more).length + 2 := by
    rw [List.length_append]
    omega
  rw [(skipsMore enough).value text rest skips inside more]
  rfl

theorem parseFields_more {fuel longer : ℕ} (enough : fuel ≤ longer) (fields : ResponseFields) :
    Extends (parseFields fuel fields) (parseFields longer fields) := by
  induction fuel generalizing longer fields with
  | zero =>
    intro text value rest reads
    simp [parseFields] at reads
  | succ fuel inductionHypothesis =>
    obtain ⟨longer, rfl⟩ := Nat.exists_eq_add_of_le' enough
    intro text value rest reads more
    rw [parseFields] at reads
    rw [← Nat.add_assoc, parseFields]
    split at reads
    case isTrue => cases reads
    case isFalse nonempty =>
      rw [if_neg (by simp [nonempty])]
      cases isEmpty : parseEmpty (ascii '}') text with
      | some tail =>
        rw [isEmpty] at reads
        rw [parseEmpty_more isEmpty]
        cases reads
        rfl
      | none =>
        rw [isEmpty] at reads
        dsimp only at reads
        obtain ⟨⟨key, keyRest⟩, readsKey, reads⟩ := bind_eq_ok.mp reads
        obtain ⟨colonRest, colon, reads⟩ := bind_eq_ok.mp reads
        obtain ⟨⟨after, fieldRest⟩, readsField, reads⟩ := bind_eq_ok.mp reads
        obtain ⟨⟨separator, separatorRest⟩, separates, reads⟩ := bind_eq_ok.mp reads
        -- The key begins before the end of the text, so what follows does not make the object empty.
        have inside : skipJsonWhitespace text ≠ [] := by
          intro atEnd
          rw [parseJsonString, atEnd] at readsKey
          cases readsKey
        have keyMore := extends_parseJsonString _ _ _ readsKey more
        have colonMore := extends_parseColon _ _ _ colon more
        have fieldMore := parseField_more readsField (ne_nil_of_parseSeparator separates) more
        have separatesMore := extends_parseSeparator _ _ _ _ _ separates more
        rw [parseEmpty_none_more isEmpty inside]
        dsimp only
        rw [keyMore, ok_bind]
        dsimp only
        rw [colonMore, ok_bind, fieldMore, ok_bind]
        dsimp only
        rw [separatesMore, ok_bind]
        cases separator with
        | comma => exact inductionHypothesis (by omega) _ _ _ _ reads more
        | close =>
          cases reads
          rfl

/-- The body that is accepted is an object and whitespace behind it. -/
theorem parseResponseBody_eq_ok {body : Text} {response : ResponseBody}
    (accepted : parseResponseBody body = .ok response) :
    ∃ text fields rest, skipJsonWhitespace body = ascii '{' :: text ∧
      parseFields (text.length + 1) ⟨none, none, none⟩ text = .ok (fields, rest) ∧ skipJsonWhitespace rest = [] := by
  rw [parseResponseBody] at accepted
  cases starts : skipJsonWhitespace body with
  | nil => simp [starts] at accepted
  | cons ch text =>
    simp only [starts] at accepted
    split at accepted
    case isTrue => cases accepted
    case isFalse isObject =>
      rw [ne_eq, not_not] at isObject
      obtain ⟨⟨fields, rest⟩, reads, accepted⟩ := bind_eq_ok.mp accepted
      refine ⟨text, fields, rest, by rw [isObject], reads, ?_⟩
      by_contra trailing
      dsimp only at accepted
      split at accepted
      case h_1 => cases accepted
      case h_2 => cases accepted
      case h_3 => simp [trailing] at accepted

theorem all_space_of_skip_nil {text : Text} (skips : skipJsonWhitespace text = []) :
    ∀ byte ∈ text, isSpaceByte byte = true := by
  simpa [skipJsonWhitespace] using skips

/-- What follows a body that is accepted in one that is accepted as well is whitespace. -/
theorem parseResponseBody_more {body more : Text} {response response' : ResponseBody}
    (accepted : parseResponseBody body = .ok response) (acceptedMore : parseResponseBody (body ++ more) = .ok response') :
    ∀ byte ∈ more, isSpaceByte byte = true := by
  obtain ⟨text, fields, rest, starts, reads, _⟩ := parseResponseBody_eq_ok accepted
  obtain ⟨textMore, fieldsMore, restMore, startsMore, readsMore, space⟩ := parseResponseBody_eq_ok acceptedMore
  rw [skipJsonWhitespace_more starts, List.cons.injEq] at startsMore
  rw [← startsMore.2] at readsMore
  have enough : text.length + 1 ≤ (text ++ more).length + 1 := by simp
  have readsLonger := parseFields_more enough _ _ _ _ reads more
  rw [readsLonger] at readsMore
  cases readsMore
  intro byte isByte
  exact all_space_of_skip_nil space byte (List.mem_append_right rest isByte)

/-- A body without the whitespace at its end. -/
def trimmed (body : Text) : Text := body.rdropWhile isSpaceByte

/-- What a proper part of the trimmed body leaves out is not only whitespace. -/
theorem exists_missing {body cut : Text} (isPrefix : cut <+: trimmed body) (proper : cut ≠ trimmed body) :
    ∃ more, cut ++ more = body ∧ ¬ ∀ byte ∈ more, isSpaceByte byte = true := by
  obtain ⟨missing, whole⟩ := isPrefix
  have missingNonempty : missing ≠ [] := by
    rintro rfl
    exact proper (by rw [← whole, List.append_nil])
  obtain ⟨space, isBody⟩ := List.rdropWhile_prefix isSpaceByte body
  refine ⟨missing ++ space, ?_, ?_⟩
  · rw [← List.append_assoc, whole]
    exact isBody
  · intro spaces
    -- The last byte of the trimmed body is none of the whitespace that was taken off.
    have lastSpace := spaces _ (List.mem_append_left space (List.getLast_mem missingNonempty))
    have trimmedNonempty : trimmed body ≠ [] := by
      rw [← whole]
      exact List.append_ne_nil_of_right_ne_nil cut missingNonempty
    have lastKept := List.rdropWhile_last_not isSpaceByte body trimmedNonempty
    have sameLast : (body.rdropWhile isSpaceByte).getLast trimmedNonempty = missing.getLast missingNonempty := by
      rw [← List.getLast_append_of_right_ne_nil cut missing missingNonempty]
      congr 1
      exact whole.symm
    rw [sameLast] at lastKept
    exact lastKept lastSpace

/-- A part of an accepted body that leaves out more than whitespace is not accepted. -/
theorem parseResponseBody_prefix {body : Text} {response : ResponseBody}
    (accepted : parseResponseBody body = .ok response) {cut : Text} (isPrefix : cut <+: trimmed body)
    (proper : cut ≠ trimmed body) (response' : ResponseBody) : parseResponseBody cut ≠ .ok response' := by
  intro acceptedCut
  obtain ⟨more, isBody, notSpace⟩ := exists_missing isPrefix proper
  rw [← isBody] at accepted
  exact notSpace (parseResponseBody_more acceptedCut accepted)

end CutPlan.Search
