import Mathlib.Algebra.GroupWithZero.Nat
import Mathlib.Algebra.Order.BigOperators.Group.List
import Mathlib.Algebra.Order.Group.Nat
import Mathlib.Data.List.Basic

/-! # S-expressions as text

Parentheses, words and comments from `;` to the end of the line.  A text is read as the tokens that it
has outside of comments, and a text can be cut at every parenthesis that is one of them.
-/

namespace CutPlan.Lib.Lisp

/-- The characters of `str.isspace`. -/
def isSpace (char : Char) : Bool :=
  char.toNat ∈ [0x20, 0x85, 0xa0, 0x1680, 0x2028, 0x2029, 0x202f, 0x205f, 0x3000] ||
    (0x09 ≤ char.toNat && char.toNat ≤ 0x0d) || (0x1c ≤ char.toNat && char.toNat ≤ 0x1f) ||
    (0x2000 ≤ char.toNat && char.toNat ≤ 0x200a)

def endsComment (char : Char) : Bool := char = '\n' || char = '\r'

inductive Token where
  | bracket (opens : Bool)
  | word (text : List Char)
  deriving DecidableEq, Repr

def bracketChar (opens : Bool) : Char := if opens then '(' else ')'

/-! ## Tokens of a text -/

def flush (word : List Char) : List Token := if word = [] then [] else [.word word]

/-- The tokens of a text that starts in a comment or not, after the beginning of a word. -/
def lex : Bool → List Char → List Char → List Token
  | _, word, [] => flush word
  | true, word, char :: text => lex (!endsComment char) word text
  | false, word, char :: text =>
    if char = ';' then flush word ++ lex true [] text
    else if char = '(' then flush word ++ .bracket true :: lex false [] text
    else if char = ')' then flush word ++ .bracket false :: lex false [] text
    else if isSpace char then flush word ++ lex false [] text
    else lex false (word ++ [char]) text

/-- Whether a text ends in a comment. -/
def commentAfter : Bool → List Char → Bool
  | commented, [] => commented
  | true, char :: text => commentAfter (!endsComment char) text
  | false, char :: text => commentAfter (char = ';') text

def tokens (text : List Char) : List Token := lex false [] text

theorem commentAfter_append (commented : Bool) (first second : List Char) :
    commentAfter commented (first ++ second) =
      commentAfter (commentAfter commented first) second := by
  induction first generalizing commented with
  | nil => rfl
  | cons char first inductionHypothesis => cases commented <;> exact inductionHypothesis _

theorem bracket_not_mem_flush (word : List Char) (opens : Bool) :
    Token.bracket opens ∉ flush word := by
  unfold flush
  split <;> simp

theorem lex_bracket (word text : List Char) (opens : Bool) :
    lex false word (bracketChar opens :: text) =
      flush word ++ .bracket opens :: lex false [] text := by
  cases opens <;> simp [lex, bracketChar]

theorem commentAfter_bracket (opens : Bool) (text : List Char) :
    commentAfter false (bracketChar opens :: text) = commentAfter false text := by
  cases opens <;> simp [commentAfter, bracketChar]

/-- A text can be cut before a parenthesis. -/
theorem lex_append_bracket (commented : Bool) (word first second : List Char) (opens : Bool)
    (code : commentAfter commented first = false) :
    lex commented word (first ++ bracketChar opens :: second) =
      lex commented word first ++ .bracket opens :: lex false [] second := by
  induction first generalizing commented word with
  | nil =>
    cases commented with
    | false => exact lex_bracket word second opens
    | true => simp [commentAfter] at code
  | cons char first inductionHypothesis =>
    cases commented with
    | true => exact inductionHypothesis _ _ code
    | false =>
      simp only [commentAfter] at code
      simp only [List.cons_append, lex]
      by_cases comment : char = ';'
      · simp only [comment, decide_true] at code
        simp [comment, inductionHypothesis true [] code]
      · simp only [comment, decide_false] at code
        simp only [inductionHypothesis false _ code]
        split_ifs <;> simp

/-- A text can be cut after a parenthesis. -/
theorem lex_append_of_bracket (commented : Bool) (word first second : List Char) (opens : Bool)
    (code : commentAfter commented first = false) :
    lex commented word (first ++ bracketChar opens :: second) =
      lex commented word (first ++ [bracketChar opens]) ++ lex false [] second := by
  rw [lex_append_bracket commented word first second opens code,
    lex_append_bracket commented word first [] opens code]
  simp [lex, flush]

/-- A text can be cut in a comment. -/
theorem lex_append_of_comment {commented : Bool} {word first : List Char}
    (inComment : commentAfter commented first = true) (started : commented = true → word = [])
    (second : List Char) :
    lex commented word (first ++ second) = lex commented word first ++ lex true [] second := by
  induction first generalizing commented word with
  | nil =>
    cases commented with
    | false => simp [commentAfter] at inComment
    | true => simp [started rfl, lex, flush]
  | cons char first inductionHypothesis =>
    cases commented with
    | true => exact inductionHypothesis inComment fun _ => started rfl
    | false =>
      simp only [commentAfter] at inComment
      simp only [List.cons_append, lex]
      by_cases comment : char = ';'
      · simp only [comment, decide_true] at inComment
        simp [comment, inductionHypothesis inComment (fun _ => rfl)]
      · simp only [comment, decide_false] at inComment
        simp only [@inductionHypothesis false _ inComment (by simp)]
        split_ifs <;> simp

/-- A comment goes on to the next end of a line. -/
theorem lex_comment {first : List Char} (sameLine : ∀ char ∈ first, endsComment char = false)
    (word second : List Char) : lex true word (first ++ second) = lex true word second := by
  induction first with
  | nil => rfl
  | cons char first inductionHypothesis =>
    have stays : endsComment char = false := sameLine char (by simp)
    simp only [List.cons_append, lex, stays]
    exact inductionHypothesis fun other member => sameLine other (by simp [member])

/-- Every parenthesis among the tokens is somewhere in the text. -/
theorem exists_bracket {commented : Bool} {word text : List Char} {opens : Bool}
    {before after : List Token} (split : lex commented word text = before ++ .bracket opens :: after) :
    ∃ first second, text = first ++ bracketChar opens :: second ∧
      commentAfter commented first = false ∧ lex commented word first = before ∧
      lex false [] second = after := by
  induction text generalizing commented word before with
  | nil =>
    have member : Token.bracket opens ∈ flush word := by
      rw [lex] at split
      simp [split]
    exact absurd member (bracket_not_mem_flush word opens)
  | cons char text inductionHypothesis =>
    -- the tokens of a started word come before the parenthesis
    have afterWord : ∀ {rest : List Token}, flush word ++ rest = before ++ .bracket opens :: after →
        ∃ later, before = flush word ++ later ∧ rest = later ++ .bracket opens :: after := by
      intro rest same
      obtain ⟨later, isBefore, isRest⟩ | ⟨later, isFlush, isAfter⟩ :=
        List.append_eq_append_iff.mp same
      · exact ⟨later, isBefore, isRest⟩
      · cases later with
        | nil =>
          refine ⟨[], by simpa using isFlush.symm, by simpa using isAfter.symm⟩
        | cons token later =>
          simp only [List.cons_append, List.cons.injEq] at isAfter
          have member : Token.bracket opens ∈ flush word := by simp [isFlush, ← isAfter.1]
          exact absurd member (bracket_not_mem_flush word opens)
    cases commented with
    | true =>
      obtain ⟨first, second, isText, code, isBefore, isAfter⟩ := inductionHypothesis split
      exact ⟨char :: first, second, by rw [isText]; rfl, code, isBefore, isAfter⟩
    | false =>
      by_cases comment : char = ';'
      · simp only [lex, comment, if_true] at split
        obtain ⟨later, isBefore, isRest⟩ := afterWord split
        obtain ⟨first, second, isText, code, isLater, isAfter⟩ := inductionHypothesis isRest
        refine ⟨char :: first, second, by rw [isText]; rfl, ?_, ?_, isAfter⟩
        · simpa [commentAfter, comment] using code
        · simp [lex, comment, isLater, isBefore]
      · by_cases bracket : ∃ inner, char = bracketChar inner
        · obtain ⟨inner, rfl⟩ := bracket
          rw [lex_bracket] at split
          obtain ⟨later, isBefore, isRest⟩ := afterWord split
          cases later with
          | nil =>
            simp only [List.nil_append, List.cons.injEq, Token.bracket.injEq] at isRest
            obtain ⟨rfl, isAfter⟩ := isRest
            exact ⟨[], text, rfl, rfl, by simpa [lex] using isBefore.symm, isAfter⟩
          | cons token later =>
            simp only [List.cons_append, List.cons.injEq] at isRest
            obtain ⟨rfl, isRest⟩ := isRest
            obtain ⟨first, second, isText, code, isLater, isAfter⟩ := inductionHypothesis isRest
            refine ⟨bracketChar inner :: first, second, by rw [isText]; rfl, ?_, ?_, isAfter⟩
            · rwa [commentAfter_bracket]
            · rw [lex_bracket, isLater, isBefore]
        · have notLeft : char ≠ '(' := fun same => bracket ⟨true, same⟩
          have notRight : char ≠ ')' := fun same => bracket ⟨false, same⟩
          simp only [lex, comment, notLeft, notRight, if_false] at split
          by_cases space : isSpace char = true
          · rw [if_pos space] at split
            obtain ⟨later, isBefore, isRest⟩ := afterWord split
            obtain ⟨first, second, isText, code, isLater, isAfter⟩ := inductionHypothesis isRest
            refine ⟨char :: first, second, by rw [isText]; rfl, ?_, ?_, isAfter⟩
            · simpa [commentAfter, comment] using code
            · simp [lex, comment, notLeft, notRight, space, isLater, isBefore]
          · rw [if_neg space] at split
            obtain ⟨first, second, isText, code, isBefore, isAfter⟩ := inductionHypothesis split
            refine ⟨char :: first, second, by rw [isText]; rfl, ?_, ?_, isAfter⟩
            · simpa [commentAfter, comment] using code
            · simp [lex, comment, notLeft, notRight, space, isBefore]

/-! ## The characters that count -/

def Token.size : Token → ℕ
  | .bracket _ => 1
  | .word text => text.length

def size (tokens : List Token) : ℕ := (tokens.map Token.size).sum

/-- How many characters of a text are in its tokens. -/
def weight : Bool → List Char → ℕ
  | _, [] => 0
  | true, char :: text => weight (!endsComment char) text
  | false, char :: text =>
    if char = ';' then weight true text
    else if isSpace char then weight false text
    else weight false text + 1

@[simp] theorem size_nil : size [] = 0 := rfl

@[simp] theorem size_cons (token : Token) (rest : List Token) : size (token :: rest) = token.size + size rest := by
  simp [size]

@[simp] theorem size_append (first second : List Token) : size (first ++ second) = size first + size second := by
  simp [size]

@[simp] theorem size_flush (word : List Char) : size (flush word) = word.length := by
  cases word <;> simp [flush, Token.size]

theorem isSpace_bracketChar (opens : Bool) : isSpace (bracketChar opens) = false := by
  cases opens <;> decide

theorem size_lex (commented : Bool) (word text : List Char) :
    size (lex commented word text) = word.length + weight commented text := by
  induction text generalizing commented word with
  | nil => simp [lex, weight]
  | cons char text inductionHypothesis =>
    cases commented with
    | true => exact inductionHypothesis _ _
    | false =>
      have left : isSpace '(' = false := isSpace_bracketChar true
      have right : isSpace ')' = false := isSpace_bracketChar false
      simp only [lex, weight]
      split_ifs <;> simp_all [Token.size] <;> omega

theorem weight_append (commented : Bool) (first second : List Char) :
    weight commented (first ++ second) =
      weight commented first + weight (commentAfter commented first) second := by
  induction first generalizing commented with
  | nil => simp [weight, commentAfter]
  | cons char first inductionHypothesis =>
    cases commented with
    | true => exact inductionHypothesis _
    | false =>
      simp only [List.cons_append, weight, commentAfter, inductionHypothesis]
      split_ifs <;> simp_all <;> omega

theorem weight_le (commented : Bool) (text : List Char) : weight commented text ≤ text.length := by
  induction text generalizing commented with
  | nil => simp [weight]
  | cons char text inductionHypothesis =>
    cases commented with
    | true => exact Nat.le_succ_of_le (inductionHypothesis _)
    | false =>
      have inComment := inductionHypothesis true
      have inCode := inductionHypothesis false
      simp only [weight, List.length_cons]
      split_ifs <;> omega

/-- No word is longer than the text it is read from. -/
theorem length_le_of_word_mem {commented : Bool} {text word : List Char}
    (member : Token.word word ∈ lex commented [] text) : word.length ≤ text.length := by
  have inSize : word.length ≤ size (lex commented [] text) :=
    List.le_sum_of_mem (List.mem_map.mpr ⟨_, member, rfl⟩)
  have bound := weight_le commented text
  rw [size_lex, List.length_nil] at inSize
  omega

/-- A text without tokens only changes whether a comment has begun. -/
theorem lex_append_of_weight {commented : Bool} {first : List Char} (blank : weight commented first = 0)
    (second : List Char) :
    lex commented [] (first ++ second) = lex (commentAfter commented first) [] second := by
  induction first generalizing commented with
  | nil => rfl
  | cons char first inductionHypothesis =>
    cases commented with
    | true => exact inductionHypothesis blank
    | false =>
      have left : isSpace '(' = false := isSpace_bracketChar true
      have right : isSpace ')' = false := isSpace_bracketChar false
      simp only [weight] at blank
      simp only [List.cons_append, lex, commentAfter]
      split_ifs at blank ⊢ <;> simp_all [flush]

theorem lex_eq_nil_iff (commented : Bool) (text : List Char) :
    lex commented [] text = [] ↔ weight commented text = 0 := by
  constructor
  · intro isEmpty
    have sizes := size_lex commented [] text
    simpa [isEmpty] using sizes.symm
  · intro blank
    have cut := lex_append_of_weight blank []
    rw [List.append_nil] at cut
    simpa [lex, flush] using cut

/-! ## Expressions -/

inductive SExpression where
  | atom (word : List Char)
  | list (items : List SExpression)

namespace SExpression

mutual

def tokens : SExpression → List Token
  | .atom word => [.word word]
  | .list items => .bracket true :: (tokensAll items ++ [.bracket false])

def tokensAll : List SExpression → List Token
  | [] => []
  | item :: items => item.tokens ++ tokensAll items

end

theorem tokensAll_append (first second : List SExpression) :
    tokensAll (first ++ second) = tokensAll first ++ tokensAll second := by
  induction first with
  | nil => rfl
  | cons item first inductionHypothesis =>
    simp [tokensAll, inductionHypothesis]

end SExpression

/-- A text is read as an expression. -/
def Parses (text : List Char) (expression : SExpression) : Prop := tokens text = expression.tokens

/-! ## Pieces between parentheses -/

/-- A text from an opening to a closing parenthesis, both outside of comments. -/
def Delimited (text : List Char) : Prop :=
  ∃ inner, text = bracketChar true :: (inner ++ [bracketChar false]) ∧ commentAfter false inner = false

namespace Delimited

variable {before piece : List Char}

theorem nonempty (delimited : Delimited piece) : piece ≠ [] := by
  obtain ⟨inner, rfl, -⟩ := delimited
  simp

theorem lex_append (delimited : Delimited piece) (after : List Char) :
    lex false [] (piece ++ after) = tokens piece ++ tokens after := by
  obtain ⟨inner, rfl, code⟩ := delimited
  have cut := lex_append_of_bracket false [] (bracketChar true :: inner) after false
    (by rwa [commentAfter_bracket])
  simpa [tokens] using cut

/-- The piece is read apart from what stands around it. -/
theorem tokens_append (delimited : Delimited piece) (code : commentAfter false before = false)
    (after : List Char) :
    tokens (before ++ (piece ++ after)) = tokens before ++ (tokens piece ++ tokens after) := by
  have isPiece := delimited.lex_append after
  obtain ⟨inner, rfl, -⟩ := delimited
  rw [← isPiece]
  rw [List.cons_append, tokens, lex_append_bracket false [] before _ true code, lex_bracket]
  rfl

end Delimited

/-- A list among the tokens is a piece of the text. -/
theorem exists_delimited {text : List Char} {items : List SExpression} {front back : List Token}
    (split : tokens text = front ++ ((SExpression.list items).tokens ++ back)) :
    ∃ before piece after, text = before ++ (piece ++ after) ∧ Delimited piece ∧
      commentAfter false before = false ∧ tokens before = front ∧ Parses piece (.list items) ∧
      tokens after = back := by
  simp only [SExpression.tokens, List.cons_append, List.append_assoc, List.nil_append] at split
  obtain ⟨before, rest, rfl, code, isFront, isRest⟩ := exists_bracket split
  obtain ⟨inner, after, rfl, innerCode, isInner, isBack⟩ := exists_bracket isRest
  have isPiece : tokens (bracketChar true :: (inner ++ [bracketChar false])) =
      (SExpression.list items).tokens := by
    rw [tokens, lex_bracket, lex_append_bracket false [] inner [] false innerCode, isInner]
    rfl
  exact ⟨before, bracketChar true :: (inner ++ [bracketChar false]), after, by simp,
    ⟨inner, rfl, innerCode⟩, code, isFront, isPiece, isBack⟩

/-! ## Matching parentheses -/

def Token.opens? : Token → Option Bool
  | .bracket opens => some opens
  | .word _ => none

def brackets (tokens : List Token) : List Bool := tokens.filterMap Token.opens?

/-- The last parenthesis is the first one that closes everything open. -/
def Closes : ℕ → List Bool → Prop
  | _, [] => False
  | depth, true :: rest => Closes (depth + 1) rest
  | depth, false :: rest => depth = 1 ∧ rest = [] ∨ 2 ≤ depth ∧ Closes (depth - 1) rest

@[simp] theorem brackets_nil : brackets [] = [] := rfl

@[simp] theorem brackets_cons_word (word : List Char) (rest : List Token) :
    brackets (.word word :: rest) = brackets rest := rfl

@[simp] theorem brackets_append (first second : List Token) :
    brackets (first ++ second) = brackets first ++ brackets second := List.filterMap_append

@[simp] theorem brackets_flush (word : List Char) : brackets (flush word) = [] := by
  unfold flush
  split <;> rfl

@[simp] theorem brackets_cons_bracket (opens : Bool) (rest : List Token) :
    brackets (.bracket opens :: rest) = opens :: brackets rest := rfl

namespace SExpression

mutual

theorem closes_tokens : ∀ (expression : SExpression) {depth : ℕ} (rest : List Bool), 1 ≤ depth →
    (Closes depth (brackets expression.tokens ++ rest) ↔ Closes depth rest)
  | .atom _, _, _, _ => by simp [tokens]
  | .list items, depth, rest, positive => by
    have inner := closes_tokensAll items (false :: rest) (Nat.le_add_left 1 depth)
    have outer : Closes (depth + 1) (false :: rest) ↔ Closes depth rest := by
      constructor
      · rintro (⟨isZero, -⟩ | ⟨-, closes⟩)
        · omega
        · exact closes
      · exact fun closes => .inr ⟨by omega, closes⟩
    rw [outer] at inner
    simpa [tokens, Closes] using inner

theorem closes_tokensAll : ∀ (items : List SExpression) {depth : ℕ} (rest : List Bool), 1 ≤ depth →
    (Closes depth (brackets (tokensAll items) ++ rest) ↔ Closes depth rest)
  | [], _, _, _ => by simp [tokensAll]
  | item :: items, depth, rest, positive => by
    rw [tokensAll, brackets_append, List.append_assoc, closes_tokens item _ positive,
      closes_tokensAll items rest positive]

end

theorem closes_list (items : List SExpression) : Closes 0 (brackets (SExpression.list items).tokens) := by
  have inner := closes_tokensAll items [false] (Nat.le_refl 1)
  have closes : Closes 1 [false] := .inl ⟨rfl, rfl⟩
  simpa [tokens, Closes] using inner.mpr closes

end SExpression

end CutPlan.Lib.Lisp
