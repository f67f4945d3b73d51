import CutPlan.Controller.ProblemInit

/-! # When only the `:init` section changes

For a problem text and a replacement, when the text afterwards reads as the same problem with the new section:
the lines that are put together again, and the place that is found.
-/

namespace CutPlan.Controller

open CutPlan.Lib.Lisp

/-! ## Lines put together again -/

/-- The text with another separator instead of every line boundary. -/
def reline (separator : List Char) : List Char → List Char
  | [] => []
  | '\r' :: '\n' :: text => separator ++ reline separator text
  | char :: text => if breaksLine char then separator ++ reline separator text else char :: reline separator text

theorem splitLinesFrom_ne_nil {line text : List Char} (nonempty : line ≠ [] ∨ text ≠ []) :
    splitLinesFrom line text ≠ [] := by
  induction line, text using splitLinesFrom.induct with
  | case1 => simp at nonempty
  | case2 line notEmpty => simp [splitLinesFrom, notEmpty]
  | case3 line text inductionHypothesis => simp [splitLinesFrom]
  | case4 line char text noPair breaks inductionHypothesis =>
    rw [splitLinesFrom.eq_3 _ _ _ noPair, if_pos breaks]
    simp
  | case5 line char text noPair continues inductionHypothesis =>
    rw [splitLinesFrom.eq_3 _ _ _ noPair, if_neg continues]
    exact inductionHypothesis (.inl (by simp))

theorem intercalate_splitLinesFrom (separator line : List Char) {text : List Char}
    (whole : ∀ char, text.getLast? = some char → breaksLine char = false) :
    List.intercalate separator (splitLinesFrom line text) = line ++ reline separator text := by
  induction line, text using splitLinesFrom.induct with
  | case1 => rfl
  | case2 line notEmpty => simp [splitLinesFrom, notEmpty, reline]
  | case3 line text inductionHypothesis =>
    cases text with
    | nil => exact absurd (whole '\n' rfl) (by decide)
    | cons next text =>
      -- after a boundary there is another line
      rw [splitLinesFrom, List.intercalate_cons_of_ne_nil (splitLinesFrom_ne_nil (.inr (by simp))), reline,
        inductionHypothesis (by simpa using whole), List.append_assoc]
      rfl
  | case4 line char text noPair breaks inductionHypothesis =>
    cases text with
    | nil => exact absurd (whole char rfl) (by simp [breaks])
    | cons next text =>
      rw [splitLinesFrom.eq_3 _ _ _ noPair, if_pos breaks,
        List.intercalate_cons_of_ne_nil (splitLinesFrom_ne_nil (.inr (by simp))), reline.eq_3 _ _ _ noPair,
        if_pos breaks, inductionHypothesis (by simpa using whole), List.append_assoc]
      rfl
  | case5 line char text noPair continues inductionHypothesis =>
    rw [splitLinesFrom.eq_3 _ _ _ noPair, if_neg continues, reline.eq_3 _ _ _ noPair, if_neg continues,
      inductionHypothesis ?_, List.append_assoc]
    · rfl
    · cases text with
      | nil => simp
      | cons next text => simpa using whole

theorem reline_of_single {separator text : List Char} (single : ∀ char ∈ text, breaksLine char = false) :
    reline separator text = text := by
  induction text using reline.induct with
  | case1 => rfl
  | case2 text => exact absurd (single '\r' (by simp)) (by decide)
  | case3 char text noPair breaks => exact absurd (single char (by simp)) (by simp [breaks])
  | case4 char text noPair continues inductionHypothesis =>
    rw [reline.eq_3 _ _ _ noPair, if_neg continues,
      inductionHypothesis fun other member => single other (by simp [member])]

/-! ## What the separator does to the tokens -/

/-- A line boundary is whitespace, and only a boundary ends a comment. -/
theorem isSpace_of_breaksLine {char : Char} (breaks : breaksLine char = true) : isSpace char = true := by
  simp only [breaksLine, isSpace, List.mem_cons, List.not_mem_nil, or_false, decide_eq_true_eq,
    Bool.or_eq_true, Bool.and_eq_true] at breaks ⊢
  omega

theorem breaksLine_of_endsComment {char : Char} (ends : endsComment char = true) : breaksLine char = true := by
  simp only [endsComment, Bool.or_eq_true, decide_eq_true_eq] at ends
  obtain rfl | rfl := ends <;> decide

theorem ne_of_breaksLine {char other : Char} (breaks : breaksLine char = true)
    (continues : breaksLine other = false) : char ≠ other := by
  rintro rfl
  simp [breaks] at continues

/-- Behind a line feed a text is read from its beginning. -/
theorem lex_lineFeed {commented : Bool} {word first second : List Char} (started : commented = true → word = [])
    (same : lex false [] first = lex false [] second) :
    lex commented word ('\n' :: first) = lex commented word ('\n' :: second) := by
  have space : isSpace '\n' = true := by decide
  cases commented with
  | true =>
    rw [started rfl]
    exact same
  | false => simp [lex, space, same]

section Separator

variable {indent : List Char}

/-- An indentation without tokens may be left out. -/
theorem lex_reline (blank : weight false indent = 0) (code : commentAfter false indent = false)
    {commented : Bool} {word text : List Char} (started : commented = true → word = []) :
    lex commented word (reline ('\n' :: indent) text) = lex commented word (reline ['\n'] text) := by
  induction text using reline.induct generalizing commented word with
  | case1 => rfl
  | case2 text inductionHypothesis =>
    rw [reline, reline, List.cons_append, List.cons_append, List.nil_append]
    apply lex_lineFeed started
    rw [lex_append_of_weight blank, code]
    exact inductionHypothesis (by simp)
  | case3 char text noPair breaks inductionHypothesis =>
    rw [reline.eq_3 _ _ _ noPair, reline.eq_3 _ _ _ noPair, if_pos breaks, if_pos breaks, List.cons_append,
      List.cons_append, List.nil_append]
    apply lex_lineFeed started
    rw [lex_append_of_weight blank, code]
    exact inductionHypothesis (by simp)
  | case4 char text noPair continues inductionHypothesis =>
    rw [reline.eq_3 _ _ _ noPair, reline.eq_3 _ _ _ noPair, if_neg continues, if_neg continues]
    cases commented with
    | true => exact inductionHypothesis fun _ => started rfl
    | false =>
      simp only [lex]
      rw [@inductionHypothesis true [] fun _ => rfl,
        @inductionHypothesis false [] (by simp),
        @inductionHypothesis false (word ++ [char]) (by simp)]

/-- Where the lines are put together with line feeds, a comment ends there if not before. -/
theorem commentAfter_reline (code : commentAfter false indent = false) {commented commented' : Bool}
    {text : List Char} (ended : commented = true → commented' = true)
    (without : commentAfter commented' text = false) :
    commentAfter commented (reline ('\n' :: indent) text) = false := by
  have lineFeed : ∀ commented rest, commentAfter commented (('\n' :: indent) ++ rest) = commentAfter false rest := by
    intro commented rest
    rw [commentAfter_append]
    cases commented <;> simp [commentAfter, endsComment, code]
  induction text using reline.induct generalizing commented commented' with
  | case1 => cases commented <;> cases commented' <;> simp_all [commentAfter, reline]
  | case2 text inductionHypothesis =>
    rw [reline, lineFeed]
    refine @inductionHypothesis false false id ?_
    cases commented' <;> simpa [commentAfter, endsComment] using without
  | case3 char text noPair breaks inductionHypothesis =>
    rw [reline.eq_3 _ _ _ noPair, if_pos breaks, lineFeed]
    cases commented' with
    | true => exact inductionHypothesis (by simp) without
    | false =>
      have comment : char ≠ ';' := ne_of_breaksLine breaks (by decide)
      exact inductionHypothesis (by simp) (by simpa [commentAfter, comment] using without)
  | case4 char text noPair continues inductionHypothesis =>
    rw [reline.eq_3 _ _ _ noPair, if_neg continues]
    have inside : endsComment char = false := by
      by_contra ends
      exact continues (breaksLine_of_endsComment (by simpa using ends))
    cases commented <;> cases commented' <;> simp only [commentAfter, inside] at without ⊢ <;>
      exact inductionHypothesis (by simp_all) without

/-- No character is lost, and where there is a line boundary those of the indentation are added. -/
theorem weight_reline (code : commentAfter false indent = false) {commented commented' : Bool} {text : List Char}
    (ended : commented = true → commented' = true) :
    weight commented' text + (if text.any breaksLine then weight false indent else 0) ≤
      weight commented (reline ('\n' :: indent) text) := by
  have lineFeed : ∀ commented rest, weight commented (('\n' :: indent) ++ rest) =
      weight false indent + weight false rest := by
    intro commented rest
    have space : isSpace '\n' = true := by decide
    have tail := weight_append false indent rest
    rw [code] at tail
    cases commented <;> simp [weight, endsComment, space, tail]
  induction text using reline.induct generalizing commented commented' with
  | case1 => cases commented <;> cases commented' <;> simp [weight, reline]
  | case2 text inductionHypothesis =>
    rw [reline, lineFeed]
    have rest := @inductionHypothesis false false id
    have carriage : isSpace '\r' = true := by decide
    have space : isSpace '\n' = true := by decide
    have same : weight commented' ('\r' :: '\n' :: text) = weight false text := by
      cases commented' <;> simp [weight, endsComment, carriage, space]
    rw [same]
    split_ifs <;> split_ifs at rest <;> omega
  | case3 char text noPair breaks inductionHypothesis =>
    rw [reline.eq_3 _ _ _ noPair, if_pos breaks, lineFeed]
    have comment : char ≠ ';' := ne_of_breaksLine breaks (by decide)
    obtain ⟨next, same⟩ : ∃ next, weight commented' (char :: text) = weight next text := by
      cases commented' with
      | true => exact ⟨_, rfl⟩
      | false => exact ⟨false, by simp [weight, comment, isSpace_of_breaksLine breaks]⟩
    have rest := @inductionHypothesis false next (by simp)
    rw [same]
    split_ifs <;> split_ifs at rest <;> omega
  | case4 char text noPair continues inductionHypothesis =>
    rw [reline.eq_3 _ _ _ noPair, if_neg continues]
    have inside : endsComment char = false := by
      by_contra ends
      exact continues (breaksLine_of_endsComment (by simpa using ends))
    have sameLines : (char :: text).any breaksLine = text.any breaksLine := by simp [continues]
    rw [sameLines]
    have bothCode := @inductionHypothesis false false id
    have bothComment := @inductionHypothesis true true id
    have exposed := @inductionHypothesis false true (by simp)
    cases commented <;> cases commented' <;> simp only [weight, inside, Bool.not_false] at ended ⊢
    · split_ifs at * <;> omega
    · split_ifs at * <;> omega
    · simp at ended
    · exact bothComment

end Separator

/-! ## Problems and replacements -/

/-- A list that begins with `:init`, in any case. -/
def InitSection (expression : SExpression) : Prop :=
  ∃ keyword facts, expression = .list (.atom keyword :: facts) ∧ lowerCase keyword = ":init".toList

/-- The text of a problem, cut at its `:init` section. -/
structure ProblemText where
  before : List Char
  original : List Char
  after : List Char
  front : List SExpression
  initial : SExpression
  back : List SExpression
  isInit : InitSection initial
  code : commentAfter false before = false
  delimited : Delimited original
  opens : tokens before = .bracket true :: SExpression.tokensAll front
  parses : Parses original initial
  closes : tokens after = SExpression.tokensAll back ++ [.bracket false]

namespace ProblemText

variable (problem : ProblemText)

def text : List Char := problem.before ++ (problem.original ++ problem.after)

/-- The problem with a section as its initial state. -/
def withInit (initial : SExpression) : SExpression := .list (problem.front ++ initial :: problem.back)

theorem parses_replaced {inserted : List Char} {new : SExpression} (delimited : Delimited inserted)
    (parses : Parses inserted new) :
    Parses (problem.before ++ (inserted ++ problem.after)) (problem.withInit new) := by
  rw [Parses, delimited.tokens_append problem.code, problem.opens, parses, problem.closes]
  simp [withInit, SExpression.tokens, SExpression.tokensAll, SExpression.tokensAll_append]

theorem parses_text : Parses problem.text (problem.withInit problem.initial) :=
  problem.parses_replaced problem.delimited problem.parses

/-- Every text that reads as a problem is cut so. -/
theorem exists_of_parses {text : List Char} {front back : List SExpression} {initial : SExpression}
    (isInit : InitSection initial) (parses : Parses text (.list (front ++ initial :: back))) :
    ∃ problem : ProblemText, problem.text = text ∧ problem.front = front ∧ problem.initial = initial ∧
      problem.back = back := by
  obtain ⟨keyword, facts, rfl, isKeyword⟩ := isInit
  have split : tokens text = (.bracket true :: SExpression.tokensAll front) ++
      ((SExpression.list (.atom keyword :: facts)).tokens ++ (SExpression.tokensAll back ++ [.bracket false])) := by
    rw [parses]
    simp [SExpression.tokens, SExpression.tokensAll, SExpression.tokensAll_append]
  obtain ⟨before, original, after, rfl, delimited, code, opens, isSection, closes⟩ := exists_delimited split
  exact ⟨⟨before, original, after, front, _, back, ⟨keyword, facts, rfl, isKeyword⟩, code, delimited, opens,
    isSection, closes⟩, rfl, rfl, rfl, rfl⟩

end ProblemText

/-- The section that a replacement stands for: it is a whole section, or only the facts of one. -/
inductive ReadsInit : Bool → List Char → SExpression → Prop
  | enclosed {text : List Char} {new : SExpression} (isInit : InitSection new) (parses : Parses text new) :
    ReadsInit true text new
  | bare {text : List Char} {facts : List SExpression} (noSection : ∀ fact ∈ facts, ¬ InitSection fact)
    (isFacts : tokens text = SExpression.tokensAll facts) :
    ReadsInit false text (.list (.atom ":init".toList :: facts))

namespace ProblemText

variable (problem : ProblemText)

/-- What stands before the section stays, and what stands after it; the text between them reads as the new
section and all of it as the problem with the new section. -/
def Replaces (initText : List Char) (new : SExpression) : Prop :=
  ∃ inserted, replaceProblemInit problem.text initText = some (problem.before ++ (inserted ++ problem.after)) ∧
    Parses inserted new ∧ Parses (problem.before ++ (inserted ++ problem.after)) (problem.withInit new)

/-- In the lower-case text the first accepted place is at the index of the section. -/
def Located : Prop :=
  Accepts problem.text problem.before.length ∧
    ∀ index < problem.before.length, ¬ Accepts problem.text index

end ProblemText

/-- The replacement without spaces around it, in a section of its own if it has none. -/
def initBlock (enclosed : Bool) (initText : List Char) : List Char :=
  if enclosed then strip initText else wrapFacts (strip initText)

/-- A whole section begins with the accepted marker and ends with its last parenthesis.  Facts do not begin
with the marker. -/
def WellShaped (enclosed : Bool) (initText : List Char) : Prop :=
  if enclosed then Accepts (strip initText) 0 ∧ Delimited (strip initText)
  else strip initText ≠ [] ∧ ¬ initMarker <+: lowerCase (strip initText)

namespace ProblemText

variable (problem : ProblemText)

structure Fits (enclosed : Bool) (initText : List Char) : Prop where
  shape : WellShaped enclosed initText
  lines : (∀ char ∈ initBlock enclosed initText, breaksLine char = false) ∨
    tokens (indentation problem.text problem.before.length) = []
  boundaries : tokens (List.intercalate ['\n'] (splitLines (initBlock enclosed initText))) =
    tokens (initBlock enclosed initText)

end ProblemText

/-! ## The replacement that is checked -/

theorem Accepts.inside {text : List Char} {index : ℕ} (accepts : Accepts text index) : index + 6 ≤ text.length := by
  obtain atEnd | ⟨char, isChar, -⟩ := accepts.2
  · exact atEnd.le
  · exact (List.getElem?_eq_some_iff.mp isChar).1.le

/-- The section at the first accepted place, up to its last parenthesis. -/
theorem findBalancedSection_eq {before piece after : List Char} {items : List SExpression}
    (accepts : Accepts (before ++ (piece ++ after)) before.length)
    (first : ∀ index < before.length, ¬ Accepts (before ++ (piece ++ after)) index)
    (delimited : Delimited piece) (parses : Parses piece (.list items)) :
    findBalancedSection (before ++ (piece ++ after)) initName =
      some (before.length, before.length + piece.length) := by
  have inLowered : before.length < (lowerCase (before ++ (piece ++ after))).length + 1 := by
    obtain ⟨rest, isRest⟩ := accepts.1
    have lengths := congrArg List.length isRest
    rw [List.length_append, List.length_drop, initMarker_eq] at lengths
    simp only [List.length_cons, List.length_nil] at lengths
    omega
  have isStart : findStart (before ++ (piece ++ after)) (lowerCase (before ++ (piece ++ after))) initMarker
      ((lowerCase (before ++ (piece ++ after))).length + 1) 0 = some before.length :=
    findStart_eq accepts accepts.inside (Nat.zero_le _) (fun index _ => first index) (by omega)
  have isEnd := findEnd_delimited delimited parses after before.length
  simp only [findBalancedSection, ← initMarker.eq_1, isStart]
  simp [isEnd]

theorem normalizeInit_eq {initText normalized : List Char} {items : List SExpression}
    (nonempty : strip initText ≠ [])
    (isNormalized : (if "(:init".toList.isPrefixOf (lowerCase (strip initText)) then strip initText
      else wrapFacts (strip initText)) = normalized)
    (accepts : Accepts normalized 0) (delimited : Delimited normalized) (parses : Parses normalized (.list items)) :
    normalizeInit initText = some normalized := by
  have found := @findBalancedSection_eq [] normalized [] items (by simpa using accepts) (by simp) delimited
    parses
  simp only [List.nil_append, List.append_nil, List.length_nil, Nat.zero_add] at found
  have blank : strip [] = [] := rfl
  simp only [normalizeInit, isNormalized, found]
  simp [nonempty, blank]

theorem startsWith_iff (text : List Char) :
    "(:init".toList.isPrefixOf (lowerCase text) = true ↔ initMarker <+: lowerCase text := by
  rw [List.isPrefixOf_iff_prefix, show initMarker = "(:init".toList by decide +kernel]

theorem initWord_eq : ":init".toList = [':', 'i', 'n', 'i', 't'] := rfl

theorem wrapFacts_eq_append (facts : List Char) :
    wrapFacts facts = ['(', ':', 'i', 'n', 'i', 't', '\n'] ++ (facts ++ ['\n', ')']) := rfl

theorem wrapFacts_eq (facts : List Char) :
    wrapFacts facts =
      bracketChar true :: (([':', 'i', 'n', 'i', 't', '\n'] ++ facts ++ ['\n']) ++ [bracketChar false]) := by
  rw [wrapFacts_eq_append]
  simp [bracketChar]

theorem accepts_head {char : Char} (boundary : isSpace char = true ∨ char = ')') (rest : List Char) :
    Accepts (['(', ':', 'i', 'n', 'i', 't'] ++ char :: rest) 0 := by
  have isMarker : lowerCase ['(', ':', 'i', 'n', 'i', 't'] = initMarker := by decide
  refine ⟨?_, .inr ⟨char, rfl, boundary⟩⟩
  rw [List.drop_zero, lowerCase, List.flatMap_append, ← lowerCase, isMarker]
  exact List.prefix_append _ _

theorem accepts_wrapFacts (facts : List Char) : Accepts (wrapFacts facts) 0 :=
  accepts_head (.inl (by decide)) (facts ++ ['\n', ')'])

/-- No comment of the facts goes on after them. -/
theorem commentAfter_wrapped (facts : List Char) :
    commentAfter false ([':', 'i', 'n', 'i', 't', '\n'] ++ facts ++ ['\n']) = false := by
  rw [commentAfter_append]
  cases commentAfter false ([':', 'i', 'n', 'i', 't', '\n'] ++ facts) <;> simp [commentAfter, endsComment]

theorem delimited_wrapFacts (facts : List Char) : Delimited (wrapFacts facts) :=
  ⟨_, wrapFacts_eq facts, commentAfter_wrapped facts⟩

theorem tokens_wrapFacts (facts : List Char) :
    tokens (wrapFacts facts) = .bracket true :: .word ":init".toList :: (tokens facts ++ [.bracket false]) := by
  have space : isSpace '\n' = true := by decide
  have keyword : lex false [] ([':', 'i', 'n', 'i', 't', '\n'] ++ facts ++ ['\n']) =
      .word ":init".toList :: tokens facts := by
    rw [lex_append_spaces (by simp [space]), initWord_eq]
    simp [lex, isSpace, flush, tokens]
  rw [tokens, wrapFacts_eq, lex_bracket, lex_append_bracket false [] _ [] false (commentAfter_wrapped facts),
    keyword]
  simp [lex, flush]

theorem parses_wrapFacts {facts : List Char} {items : List SExpression}
    (isFacts : tokens facts = SExpression.tokensAll items) :
    Parses (wrapFacts facts) (.list (.atom ":init".toList :: items)) := by
  rw [Parses, tokens_wrapFacts, isFacts]
  simp [SExpression.tokens, SExpression.tokensAll]

/-- A replacement of the right shape is what is put into the problem. -/
theorem normalizeInit_of_wellShaped {enclosed : Bool} {initText : List Char} {new : SExpression}
    (reads : ReadsInit enclosed initText new) (shape : WellShaped enclosed initText) :
    normalizeInit initText = some (initBlock enclosed initText) ∧ Delimited (initBlock enclosed initText) ∧
      Parses (initBlock enclosed initText) new := by
  cases reads with
  | enclosed isInit parses =>
    obtain ⟨accepts, delimited⟩ := shape
    obtain ⟨keyword, facts, rfl, -⟩ := isInit
    have isSection : Parses (strip initText) _ := (tokens_strip initText).trans parses
    refine ⟨normalizeInit_eq delimited.nonempty ?_ accepts delimited isSection, delimited, isSection⟩
    exact if_pos ((startsWith_iff _).mpr accepts.1)
  | bare noSection isFacts =>
    obtain ⟨nonempty, noMarker⟩ := shape
    have parses := parses_wrapFacts ((tokens_strip initText).trans isFacts)
    have delimited := delimited_wrapFacts (strip initText)
    refine ⟨normalizeInit_eq nonempty ?_ (accepts_wrapFacts _) delimited parses, delimited, parses⟩
    exact if_neg fun starts => noMarker ((startsWith_iff _).mp starts)

/-! ## A section that is located -/

/-- The line of the section begins outside of comments. -/
theorem commentAfter_indentation {before : List Char} (code : commentAfter false before = false) :
    commentAfter false (before.rtakeWhile (· ≠ '\n')) = false := by
  have whole := List.rdropWhile_append_rtakeWhile (p := (· ≠ '\n')) (l := before)
  by_cases first : before.rdropWhile (· ≠ '\n') = []
  · rw [first, List.nil_append] at whole
    rwa [whole]
  · have lineFeed := List.rdropWhile_last_not (· ≠ '\n') before first
    have isLast : (before.rdropWhile (· ≠ '\n')).getLast first = '\n' := by simpa using lineFeed
    have ends : commentAfter false (before.rdropWhile (· ≠ '\n')) = false := by
      rw [← List.dropLast_append_getLast first, isLast, commentAfter_append]
      cases commentAfter false (before.rdropWhile (· ≠ '\n')).dropLast <;> simp [commentAfter, endsComment]
    rw [← whole, commentAfter_append, ends] at code
    exact code

theorem getLast?_delimited {piece : List Char} (delimited : Delimited piece) : piece.getLast? = some ')' := by
  obtain ⟨inner, rfl, -⟩ := delimited
  rw [← List.cons_append, List.getLast?_concat]
  rfl

theorem delimited_reline {indent block : List Char} (code : commentAfter false indent = false)
    (delimited : Delimited block) : Delimited (reline ('\n' :: indent) block) := by
  have last : ∀ inner, reline ('\n' :: indent) (inner ++ [')']) = reline ('\n' :: indent) inner ++ [')'] := by
    intro inner
    induction inner using reline.induct with
    | case1 => simp [reline, breaksLine]
    | case2 text inductionHypothesis => simp [reline, inductionHypothesis]
    | case3 char text noPair breaks inductionHypothesis =>
      have noPair' : ∀ rest, char = '\r' → text ++ [')'] = '\n' :: rest → False := by
        intro rest isCarriage isPair
        cases text with
        | nil => simp at isPair
        | cons next text =>
          simp only [List.cons_append, List.cons.injEq] at isPair
          exact noPair text isCarriage (by rw [isPair.1])
      rw [List.cons_append, reline.eq_3 _ _ _ noPair', reline.eq_3 _ _ _ noPair, if_pos breaks, if_pos breaks,
        inductionHypothesis, List.append_assoc]
    | case4 char text noPair continues inductionHypothesis =>
      have noPair' : ∀ rest, char = '\r' → text ++ [')'] = '\n' :: rest → False := by
        rintro rest rfl -
        exact continues (by decide)
      rw [List.cons_append, reline.eq_3 _ _ _ noPair', reline.eq_3 _ _ _ noPair, if_neg continues,
        if_neg continues, inductionHypothesis, List.cons_append]
  obtain ⟨inner, rfl, inside⟩ := delimited
  refine ⟨reline ('\n' :: indent) inner, ?_, commentAfter_reline code id inside⟩
  have noPair : ∀ rest, bracketChar true = '\r' → inner ++ [bracketChar false] = '\n' :: rest → False := by
    intro rest isCarriage
    exact absurd isCarriage (by decide)
  rw [reline.eq_3 _ _ _ noPair, if_neg (by decide)]
  exact congrArg _ (last inner)

namespace ProblemText

variable {problem : ProblemText}

theorem indentation_eq : indentation problem.text problem.before.length = problem.before.rtakeWhile (· ≠ '\n') := by
  simp [indentation, text]

theorem replaceProblemInit_of_located (located : problem.Located) {initText normalized : List Char}
    (isNormalized : normalizeInit initText = some normalized)
    (whole : ∀ char, normalized.getLast? = some char → breaksLine char = false) :
    replaceProblemInit problem.text initText =
      some (problem.before ++ (reline ('\n' :: indentation problem.text problem.before.length) normalized ++
        problem.after)) := by
  obtain ⟨keyword, facts, isInitial, -⟩ := problem.isInit
  have parses := problem.parses
  rw [isInitial] at parses
  have found : findBalancedSection problem.text initName =
      some (problem.before.length, problem.before.length + problem.original.length) :=
    findBalancedSection_eq located.1 located.2 problem.delimited parses
  have lines := intercalate_splitLinesFrom ('\n' :: indentation problem.text problem.before.length)
    [] whole
  have rest : problem.text.drop (problem.before.length + problem.original.length) = problem.after := by
    rw [text, ← List.append_assoc, ← List.length_append, List.drop_left]
  have lead : problem.text.take problem.before.length = problem.before := by
    rw [text, List.take_left]
  simp only [replaceProblemInit, isNormalized, found, splitLines]
  simp only [Option.bind_eq_bind, Option.bind_some, lines, lead, rest, List.nil_append]
  rfl

theorem replaces_of_fits (located : problem.Located) {enclosed : Bool} {initText : List Char} {new : SExpression}
    (reads : ReadsInit enclosed initText new) (fits : problem.Fits enclosed initText) :
    problem.Replaces initText new := by
  obtain ⟨isNormalized, delimited, parses⟩ := normalizeInit_of_wellShaped reads fits.shape
  have whole : ∀ char, (initBlock enclosed initText).getLast? = some char → breaksLine char = false := by
    intro char isLast
    rw [getLast?_delimited delimited] at isLast
    cases isLast
    decide
  have code : commentAfter false (indentation problem.text problem.before.length) = false := by
    rw [indentation_eq]
    exact commentAfter_indentation problem.code
  have sameTokens : tokens (reline ('\n' :: indentation problem.text problem.before.length)
      (initBlock enclosed initText)) = tokens (initBlock enclosed initText) := by
    obtain single | blank := fits.lines
    · rw [reline_of_single single]
    · have boundaries := fits.boundaries
      rw [splitLines, intercalate_splitLinesFrom _ _ whole, List.nil_append] at boundaries
      have withoutIndent := @lex_reline _ ((lex_eq_nil_iff false _).mp blank) code false []
        (initBlock enclosed initText) (by simp)
      exact withoutIndent.trans boundaries
  have inserted : Parses (reline ('\n' :: indentation problem.text problem.before.length)
      (initBlock enclosed initText)) new := sameTokens.trans parses
  exact ⟨_, replaceProblemInit_of_located located isNormalized whole, inserted,
    problem.parses_replaced (delimited_reline code delimited) inserted⟩

end ProblemText

/-! ## The keyword at the marker -/

/-- A character that is not part of a word. -/
def separates (char : Char) : Bool := char = ';' || char = '(' || char = ')' || isSpace char

theorem lowerChar_of_separates {char : Char} (special : separates char = true) : lowerChar char = [char] := by
  simp only [separates, isSpace, List.mem_cons, List.not_mem_nil, or_false, Bool.or_eq_true, Bool.and_eq_true,
    decide_eq_true_eq] at special
  have range : char.toNat ≠ 0x130 ∧ ¬ (0x41 ≤ char.toNat ∧ char.toNat ≤ 0x5a) := by
    obtain ((rfl | rfl) | rfl) | spaces := special
    · decide
    · decide
    · decide
    · omega
  have notUpper : ¬ (char.val ≥ 'A'.val ∧ char.val ≤ 'Z'.val) := range.2
  have unchanged : char.toLower = char := dif_neg notUpper
  rw [lowerChar, if_neg range.1, unchanged]

theorem separates_of_lowerChar {char lowered : Char} (isLowered : lowerChar char = [lowered])
    (isWord : separates lowered = false) : separates char = false := by
  by_contra special
  rw [lowerChar_of_separates (by simpa using special)] at isLowered
  simp only [List.cons.injEq, and_true] at isLowered
  subst isLowered
  exact special isWord

theorem eq_leftParenthesis {char : Char} (isLowered : lowerChar char = ['(']) : char = '(' := by
  rw [lowerChar] at isLowered
  split_ifs at isLowered with dotted
  · simp at isLowered
  · simp only [List.cons.injEq, and_true] at isLowered
    by_cases upper : char.val ≥ 'A'.val ∧ char.val ≤ 'Z'.val
    · -- a capital letter becomes a small one
      have isSmall : char.toLower.val = char.val + ('a'.val - 'A'.val) := congrArg Char.val (dif_pos upper)
      have value := congrArg (fun lowered : Char => lowered.val.toNat) isLowered
      rw [isSmall] at value
      have lower : 'A'.val.toNat ≤ char.val.toNat := upper.1
      have bound : char.val.toNat ≤ 'Z'.val.toNat := upper.2
      simp only [UInt32.toNat_add] at value
      simp at value lower bound
      omega
    · have unchanged : char.toLower = char := dif_neg upper
      rw [← unchanged, isLowered]

/-- The text begins with the characters whose lower-case forms are found. -/
theorem prefix_lowerCase_cons {first : Char} {rest text : List Char} (isPrefix : first :: rest <+: lowerCase text)
    (follows : first = 'i' → ∃ next more, rest = next :: more ∧ next ≠ Char.ofNat 0x307) :
    ∃ char tail, text = char :: tail ∧ lowerChar char = [first] ∧ rest <+: lowerCase tail := by
  cases text with
  | nil => simp [lowerCase] at isPrefix
  | cons char tail =>
    have opened : first :: rest <+: lowerChar char ++ lowerCase tail := isPrefix
    by_cases dotted : char.toNat = 0x130
    · rw [lowerChar, if_pos dotted, List.cons_append, List.cons_prefix_cons] at opened
      obtain ⟨next, more, rfl, differs⟩ := follows opened.1
      rw [List.cons_append, List.cons_prefix_cons] at opened
      exact absurd opened.2.1 differs
    · have single : lowerChar char = [char.toLower] := if_neg dotted
      rw [single, List.cons_append, List.cons_prefix_cons, List.nil_append] at opened
      exact ⟨char, tail, rfl, by rw [single, opened.1], opened.2⟩

theorem lex_word (started : List Char) {word : List Char} (isWord : ∀ char ∈ word, separates char = false)
    (rest : List Char) :
    lex false started (word ++ rest) = lex false (started ++ word) rest := by
  induction word generalizing started with
  | nil => simp
  | cons char word inductionHypothesis =>
    have plain := isWord char (by simp)
    simp only [separates, Bool.or_eq_false_iff, decide_eq_false_iff_not] at plain
    obtain ⟨⟨⟨comment, left⟩, right⟩, space⟩ := plain
    have continues := @inductionHypothesis (started ++ [char])
      fun other member => isWord other (by simp [member])
    simpa [lex, comment, left, right, space] using continues

/-- Where the marker is accepted at the beginning, the text begins with a list whose first word is the keyword. -/
theorem exists_keyword {text : List Char} (accepts : Accepts text 0) :
    ∃ keyword rest tail, text = '(' :: tail ∧ tokens text = .bracket true :: .word keyword :: rest ∧
      lowerCase keyword = ":init".toList := by
  obtain ⟨isPrefix, boundary⟩ := accepts
  rw [List.drop_zero, initMarker_eq] at isPrefix
  obtain ⟨open', text, rfl, isOpen, isPrefix⟩ := prefix_lowerCase_cons isPrefix (by simp)
  obtain ⟨colon, text, rfl, isColon, isPrefix⟩ := prefix_lowerCase_cons isPrefix (by simp)
  obtain ⟨i, text, rfl, isI, isPrefix⟩ := prefix_lowerCase_cons isPrefix (by simp)
  obtain ⟨n, text, rfl, isN, isPrefix⟩ := prefix_lowerCase_cons isPrefix (by simp)
  obtain ⟨i', text, rfl, isI', isPrefix⟩ := prefix_lowerCase_cons isPrefix (by simp)
  obtain ⟨t, text, rfl, isT, -⟩ := prefix_lowerCase_cons isPrefix (by simp)
  have isWord : ∀ char ∈ [colon, i, n, i', t], separates char = false := by
    intro char member
    simp only [List.mem_cons, List.not_mem_nil, or_false] at member
    obtain rfl | rfl | rfl | rfl | rfl := member
    · exact separates_of_lowerChar isColon (by decide)
    · exact separates_of_lowerChar isI (by decide)
    · exact separates_of_lowerChar isN (by decide)
    · exact separates_of_lowerChar isI' (by decide)
    · exact separates_of_lowerChar isT (by decide)
  have opens : open' = '(' := eq_leftParenthesis isOpen
  have keyword : lowerCase [colon, i, n, i', t] = ":init".toList := by
    rw [initWord_eq]
    simp [lowerCase, isColon, isI, isN, isI', isT]
  have word := lex_word [] isWord text
  obtain ⟨rest, isRest⟩ : ∃ rest, lex false [colon, i, n, i', t] text = .word [colon, i, n, i', t] :: rest := by
    cases text with
    | nil => exact ⟨[], rfl⟩
    | cons char text =>
      obtain atEnd | ⟨char', isChar, isBoundary⟩ := boundary
      · simp at atEnd
      · simp only [Nat.zero_add, List.getElem?_cons_succ, List.getElem?_cons_zero, Option.some.injEq] at isChar
        subst isChar
        by_cases comment : char = ';'
        · subst comment
          exact absurd isBoundary (by decide)
        obtain space | rfl := isBoundary
        · have left : char ≠ '(' := by rintro rfl; exact absurd space (by decide)
          have right : char ≠ ')' := by rintro rfl; exact absurd space (by decide)
          exact ⟨_, by simp [lex, comment, left, right, space, flush]; rfl⟩
        · exact ⟨_, by simp [lex, flush]; rfl⟩
  refine ⟨_, rest, _, by rw [opens], ?_, keyword⟩
  have cut := lex_bracket [] (colon :: i :: n :: i' :: t :: text) true
  simp only [List.cons_append, List.nil_append, isRest] at word
  rw [opens, tokens]
  rwa [word] at cut

/-! ## Only then -/

theorem findBalancedSection_inv {text : List Char} {start stop : ℕ}
    (found : findBalancedSection text initName = some (start, stop)) :
    Accepts text start ∧ (∀ index < start, ¬ Accepts text index) ∧
      findEnd 0 false (text.drop start) start = some stop := by
  simp only [findBalancedSection, ← initMarker.eq_1] at found
  cases isStart : findStart text (lowerCase text) initMarker ((lowerCase text).length + 1) 0 with
  | none => simp [isStart] at found
  | some place =>
    cases isEnd : findEnd 0 false (text.drop place) place with
    | none => simp [isStart, isEnd] at found
    | some finish =>
      simp only [isStart, isEnd, Option.bind_eq_bind, Option.bind_some, Option.pure_def, Option.some.injEq,
        Prod.mk.injEq] at found
      obtain ⟨rfl, rfl⟩ := found
      obtain ⟨accepts, -, first⟩ := accepts_of_findStart isStart
      exact ⟨accepts, fun index => first index (Nat.zero_le _), isEnd⟩

/-- A checked text is one section with nothing but spaces after it. -/
theorem checked_inv {text normalized : List Char}
    (checked : (do
      let (start, stop) ← findBalancedSection text initName
      guard (start = 0 ∧ strip (text.drop stop) = [])
      return text) = some normalized) :
    normalized = text ∧ ∃ stop, findBalancedSection text initName = some (0, stop) ∧
      strip (text.drop stop) = [] := by
  cases found : findBalancedSection text initName with
  | none => simp [found] at checked
  | some place =>
    obtain ⟨start, stop⟩ := place
    by_cases complete : start = 0 ∧ strip (text.drop stop) = []
    · obtain ⟨rfl, blank⟩ := complete
      simp only [found, Option.bind_eq_bind, Option.bind_some, blank, and_self, guard_true, Option.pure_def,
        Option.some.injEq] at checked
      exact ⟨checked.symm, stop, rfl, blank⟩
    · simp [found, complete, guard] at checked

theorem normalizeInit_inv {initText normalized : List Char}
    (isNormalized : normalizeInit initText = some normalized) :
    strip initText ≠ [] ∧
      (initMarker <+: lowerCase (strip initText) ∧ normalized = strip initText ∨
        ¬ initMarker <+: lowerCase (strip initText) ∧ normalized = wrapFacts (strip initText)) ∧
      ∃ stop, findBalancedSection normalized initName = some (0, stop) ∧ strip (normalized.drop stop) = [] := by
  by_cases blank : strip initText = []
  · simp [normalizeInit, blank, guard] at isNormalized
  refine ⟨blank, ?_⟩
  simp only [normalizeInit] at isNormalized
  by_cases starts : initMarker <+: lowerCase (strip initText)
  · rw [if_pos ((startsWith_iff _).mpr starts)] at isNormalized
    obtain ⟨rfl, found⟩ := checked_inv (by simpa [blank] using isNormalized)
    exact ⟨.inl ⟨starts, rfl⟩, found⟩
  · rw [if_neg (mt (startsWith_iff _).mp starts)] at isNormalized
    obtain ⟨rfl, found⟩ := checked_inv (by simpa [blank] using isNormalized)
    exact ⟨.inr ⟨starts, rfl⟩, found⟩

/-- The last character of a stripped text is no space. -/
theorem getLast?_strip {text : List Char} {char : Char} (isLast : (strip text).getLast? = some char) :
    isSpace char = false := by
  have nonempty : strip text ≠ [] := by
    intro isEmpty
    simp [isEmpty] at isLast
  rw [List.getLast?_eq_some_getLast nonempty] at isLast
  cases isLast
  exact Bool.eq_false_iff.mpr (List.rdropWhile_last_not isSpace _ nonempty)

theorem strip_eq_nil {text : List Char} (isEmpty : strip text = []) : ∀ char ∈ text, isSpace char = true := by
  obtain ⟨before, after, isText, beforeBlank, afterBlank⟩ := exists_strip text
  intro char member
  rw [isText, isEmpty, List.nil_append, List.mem_append] at member
  exact member.elim (beforeBlank char) (afterBlank char)

theorem eq_nil_of_tokens {text : List Char} (noTokens : tokens text = []) (rest : List Char)
    (isText : ∃ tail, text ++ rest = '(' :: tail) : text = [] := by
  cases text with
  | nil => rfl
  | cons char text =>
    obtain ⟨tail, isText⟩ := isText
    simp only [List.cons_append, List.cons.injEq] at isText
    rw [isText.1] at noTokens
    have cut : tokens ('(' :: text) = flush [] ++ .bracket true :: tokens text := lex_bracket [] text true
    simp [cut] at noTokens

/-- A whole section that is not changed runs from its first to its last parenthesis. -/
theorem delimited_of_checked {initText : List Char} {new : SExpression} (isInit : InitSection new)
    (parses : Parses initText new) {stop : ℕ}
    (found : findBalancedSection (strip initText) initName = some (0, stop))
    (complete : strip ((strip initText).drop stop) = []) :
    Accepts (strip initText) 0 ∧ Delimited (strip initText) := by
  obtain ⟨accepts, -, isEnd⟩ := findBalancedSection_inv found
  obtain ⟨-, -, tail, isText, -, -⟩ := exists_keyword accepts
  obtain ⟨keyword, facts, rfl, -⟩ := isInit
  have split : tokens (strip initText) = [] ++ ((SExpression.list (.atom keyword :: facts)).tokens ++ []) := by
    rw [tokens_strip, parses]
    simp
  obtain ⟨before, piece, after, isCut, delimited, -, isBefore, isSection, -⟩ := exists_delimited split
  have noLead : before = [] := eq_nil_of_tokens isBefore _ ⟨tail, by rw [← isCut, isText]⟩
  subst noLead
  rw [List.nil_append] at isCut
  rw [isCut, List.drop_zero, findEnd_delimited delimited isSection, Nat.zero_add] at isEnd
  cases isEnd
  rw [isCut, List.drop_left] at complete
  -- the stripped text does not end with spaces
  have noTail : after = [] := by
    by_contra nonempty
    have isLast : (strip initText).getLast? = some (after.getLast nonempty) := by
      rw [isCut, List.getLast?_append_of_ne_nil _ nonempty, List.getLast?_eq_some_getLast nonempty]
    have notSpace := getLast?_strip isLast
    simp [strip_eq_nil complete _ (List.getLast_mem nonempty)] at notSpace
  rw [noTail, List.append_nil] at isCut
  exact ⟨accepts, isCut ▸ delimited⟩

/-- The first fact of facts that begin with the marker is a section. -/
theorem exists_initSection {keyword : List Char} {rest : List Token} {facts : List SExpression}
    (isInit : lowerCase keyword = ":init".toList)
    (isFacts : SExpression.tokensAll facts = .bracket true :: .word keyword :: rest) :
    ∃ fact ∈ facts, InitSection fact := by
  cases facts with
  | nil => simp [SExpression.tokensAll] at isFacts
  | cons fact facts =>
    refine ⟨fact, by simp, ?_⟩
    cases fact with
    | atom word => simp [SExpression.tokensAll, SExpression.tokens] at isFacts
    | list items =>
      cases items with
      | nil => simp [SExpression.tokensAll, SExpression.tokens] at isFacts
      | cons item items =>
        cases item with
        | atom word =>
          simp only [SExpression.tokensAll, SExpression.tokens, List.cons_append, List.nil_append,
            List.cons.injEq, Token.word.injEq, true_and] at isFacts
          exact ⟨word, items, rfl, by rw [isFacts.1, isInit]⟩
        | list inner => simp [SExpression.tokensAll, SExpression.tokens] at isFacts

namespace ProblemText

variable {problem : ProblemText}

theorem commentAfter_indentation_text :
    commentAfter false (indentation problem.text problem.before.length) = false := by
  rw [indentation_eq]
  exact commentAfter_indentation problem.code

/-- What is put between the unchanged parts is the replacement with its lines indented. -/
theorem exists_normalized (located : problem.Located) {initText : List Char} {new : SExpression}
    (replaces : problem.Replaces initText new) :
    ∃ normalized, normalizeInit initText = some normalized ∧
      Parses (reline ('\n' :: indentation problem.text problem.before.length) normalized) new := by
  obtain ⟨inserted, returns, parses, -⟩ := replaces
  cases isNormalized : normalizeInit initText with
  | none => simp [replaceProblemInit, isNormalized] at returns
  | some normalized =>
    refine ⟨normalized, rfl, ?_⟩
    have whole : ∀ char, normalized.getLast? = some char → breaksLine char = false := by
      intro char isLast
      obtain ⟨-, ⟨-, rfl⟩ | ⟨-, rfl⟩, -⟩ := normalizeInit_inv isNormalized
      · by_contra breaks
        have space := isSpace_of_breaksLine (by simpa using breaks)
        simp [getLast?_strip isLast] at space
      · rw [getLast?_delimited (delimited_wrapFacts _)] at isLast
        cases isLast
        decide
    rw [replaceProblemInit_of_located located isNormalized whole, Option.some.injEq] at returns
    rwa [List.append_cancel_right (List.append_cancel_left returns)]

/-- A text that reads as a new section in the place of the old one comes from a replacement of the right shape. -/
theorem wellShaped_of_replaces (located : problem.Located) {enclosed : Bool} {initText : List Char}
    {new : SExpression} (reads : ReadsInit enclosed initText new) (replaces : problem.Replaces initText new) :
    WellShaped enclosed initText := by
  obtain ⟨normalized, isNormalized, inserted⟩ := exists_normalized located replaces
  obtain ⟨nonempty, branch, stop, found, complete⟩ := normalizeInit_inv isNormalized
  cases reads with
  | enclosed isInit parses =>
    obtain ⟨starts, rfl⟩ | ⟨noMarker, rfl⟩ := branch
    · exact delimited_of_checked isInit parses found complete
    · -- a section around the section has more characters
      have sameSize := congrArg size (inserted.trans (parses.symm.trans (tokens_strip initText).symm))
      have wrapped := congrArg size (tokens_wrapFacts (strip initText))
      have grown := @weight_reline _ (@commentAfter_indentation_text problem) false false
        (wrapFacts (strip initText)) id
      simp only [tokens, size_lex, List.length_nil, size_cons, size_append, Token.size] at sameSize wrapped
      split_ifs at grown <;> omega
  | bare noSection isFacts =>
    obtain ⟨starts, rfl⟩ | ⟨noMarker, -⟩ := branch
    · obtain ⟨keyword, rest, -, -, isTokens, isInit⟩ := exists_keyword (findBalancedSection_inv found).1
      rw [tokens_strip, isFacts] at isTokens
      obtain ⟨fact, member, isSection⟩ := exists_initSection isInit isTokens
      exact absurd isSection (noSection fact member)
    · exact ⟨nonempty, noMarker⟩

theorem fits_of_replaces (located : problem.Located) {enclosed : Bool} {initText : List Char}
    {new : SExpression} (reads : ReadsInit enclosed initText new) (replaces : problem.Replaces initText new) :
    problem.Fits enclosed initText := by
  have shape := wellShaped_of_replaces located reads replaces
  obtain ⟨isBlock, delimited, parses⟩ := normalizeInit_of_wellShaped reads shape
  obtain ⟨normalized, isNormalized, inserted⟩ := exists_normalized located replaces
  rw [isBlock] at isNormalized
  cases isNormalized
  have code := @commentAfter_indentation_text problem
  have sameTokens := inserted.trans parses.symm
  have sameSize := congrArg size sameTokens
  have grown := @weight_reline _ code false false (initBlock enclosed initText) id
  simp only [tokens, size_lex, List.length_nil, Nat.zero_add] at sameSize
  have whole : ∀ char, (initBlock enclosed initText).getLast? = some char → breaksLine char = false := by
    intro char isLast
    rw [getLast?_delimited delimited] at isLast
    cases isLast
    decide
  by_cases broken : (initBlock enclosed initText).any breaksLine = true
  · -- the characters of the indentation would be added
    rw [if_pos broken] at grown
    have blank : weight false (indentation problem.text problem.before.length) = 0 := by omega
    refine ⟨shape, .inr ((lex_eq_nil_iff false _).mpr blank), ?_⟩
    rw [splitLines, intercalate_splitLinesFrom _ _ whole, List.nil_append]
    have withoutIndent := @lex_reline _ blank code false [] (initBlock enclosed initText) (by simp)
    exact withoutIndent.symm.trans sameTokens
  · have single : ∀ char ∈ initBlock enclosed initText, breaksLine char = false := by
      simpa using broken
    refine ⟨shape, .inl single, ?_⟩
    rw [splitLines, intercalate_splitLinesFrom _ _ whole, List.nil_append, reline_of_single single]

end ProblemText

/-! ## A section that is not located -/

theorem strip_of_delimited {piece : List Char} (delimited : Delimited piece) : strip piece = piece := by
  have last := getLast?_delimited delimited
  obtain ⟨inner, rfl, -⟩ := delimited
  have first : isSpace (bracketChar true) = false := isSpace_bracketChar true
  rw [strip, List.dropWhile_cons_of_neg (by simp [first]), List.rdropWhile_eq_self_iff]
  intro nonempty
  rw [List.getLast?_eq_some_getLast nonempty, Option.some.injEq] at last
  rw [last]
  decide

/-- A section with one fact that is longer than any word of the problem. -/
def probeFact (length : ℕ) : List Char := List.replicate (length + 1) 'a'

def probeInner (length : ℕ) : List Char := [':', 'i', 'n', 'i', 't', ' '] ++ probeFact length

def probe (length : ℕ) : List Char := bracketChar true :: (probeInner length ++ [bracketChar false])

theorem separates_probeFact (length : ℕ) : ∀ char ∈ probeFact length, separates char = false := by
  intro char member
  rw [List.eq_of_mem_replicate member]
  decide

theorem commentAfter_word {word : List Char} (isWord : ∀ char ∈ word, separates char = false) :
    commentAfter false word = false := by
  induction word with
  | nil => rfl
  | cons char word inductionHypothesis =>
    have plain := isWord char (by simp)
    have comment : char ≠ ';' := by rintro rfl; exact absurd plain (by decide)
    simpa [commentAfter, comment] using inductionHypothesis fun other member => isWord other (by simp [member])

theorem commentAfter_probeInner (length : ℕ) : commentAfter false (probeInner length) = false := by
  rw [probeInner, commentAfter_append]
  exact commentAfter_word (separates_probeFact length)

theorem delimited_probe (length : ℕ) : Delimited (probe length) := ⟨_, rfl, commentAfter_probeInner length⟩

theorem lex_probeInner (length : ℕ) :
    lex false [] (probeInner length) = [.word ":init".toList, .word (probeFact length)] := by
  have keyword : lex false [] (probeInner length) = .word ":init".toList :: lex false [] (probeFact length) := by
    rw [initWord_eq]
    simp [probeInner, lex, isSpace, flush]
  have fact := lex_word [] (separates_probeFact length) []
  rw [List.append_nil, List.nil_append] at fact
  rw [keyword, fact]
  simp [lex, flush, probeFact]

theorem parses_probe (length : ℕ) :
    Parses (probe length) (.list [.atom ":init".toList, .atom (probeFact length)]) := by
  rw [Parses, tokens, probe, lex_bracket, lex_append_bracket false [] _ [] false (commentAfter_probeInner length),
    lex_probeInner]
  simp [SExpression.tokens, SExpression.tokensAll, lex, flush]

theorem readsInit_probe (length : ℕ) :
    ReadsInit true (probe length) (.list [.atom ":init".toList, .atom (probeFact length)]) :=
  .enclosed ⟨_, _, rfl, by rw [initWord_eq]; decide⟩ (parses_probe length)

theorem single_probe (length : ℕ) : ∀ char ∈ probe length, breaksLine char = false := by
  intro char member
  simp only [probe, probeInner, probeFact, List.mem_cons, List.mem_append, List.mem_replicate,
    List.not_mem_nil, or_false] at member
  obtain rfl | ((rfl | rfl | rfl | rfl | rfl | rfl) | ⟨-, rfl⟩) | rfl := member <;> decide

theorem fits_probe (problem : ProblemText) (length : ℕ) : problem.Fits true (probe length) := by
  have stripped := strip_of_delimited (delimited_probe length)
  have accepts : Accepts (probe length) 0 := accepts_head (.inl (by decide)) (probeFact length ++ [bracketChar false])
  refine ⟨?_, .inl ?_, ?_⟩
  · show Accepts (strip (probe length)) 0 ∧ Delimited (strip (probe length))
    rw [stripped]
    exact ⟨accepts, delimited_probe length⟩
  · show ∀ char ∈ strip (probe length), _
    rw [stripped]
    exact single_probe length
  · show tokens (List.intercalate ['\n'] (splitLines (strip (probe length)))) = tokens (strip (probe length))
    rw [stripped, splitLines, intercalate_splitLinesFrom, reline_of_single (single_probe length), List.nil_append]
    intro char isLast
    exact single_probe length char (List.mem_of_getLast? isLast)

theorem probeFact_not_mem {length : ℕ} {commented : Bool} {text : List Char} (short : text.length ≤ length) :
    Token.word (probeFact length) ∉ lex commented [] text := by
  intro member
  have bound := length_le_of_word_mem member
  rw [probeFact, List.length_replicate] at bound
  omega

theorem leftParenthesis_not_mem_probe (length : ℕ) :
    bracketChar true ∉ probeInner length ++ [bracketChar false] := by
  simp [probeInner, probeFact, bracketChar]

/-- Where the section is read, its fact is not the second token. -/
theorem lex_ne_of_probe {length : ℕ} {first rest keyword : List Char} {more : List Token}
    (firstShort : first.length ≤ length) (restShort : rest.length ≤ length) :
    lex false [] (first ++ (probe length ++ rest)) ≠
      .word keyword :: .word (probeFact length) :: more := by
  intro same
  cases inComment : commentAfter false first with
  | false =>
    rw [probe, List.cons_append, lex_append_bracket false [] first _ true inComment] at same
    cases isFirst : lex false [] first with
    | nil => simp [isFirst] at same
    | cons token tokens =>
      cases tokens with
      | nil => simp [isFirst] at same
      | cons second tokens =>
        simp only [isFirst, List.cons_append, List.cons.injEq] at same
        have member : Token.word (probeFact length) ∈ lex false [] first := by
          simp [isFirst, same.2.1]
        exact probeFact_not_mem firstShort member
  | true =>
    have sameLine : ∀ char ∈ probe length, endsComment char = false := by
      intro char member
      by_contra ends
      have breaks := breaksLine_of_endsComment (by simpa using ends)
      simp [single_probe length char member] at breaks
    have member : Token.word (probeFact length) ∈ lex false [] (first ++ (probe length ++ rest)) := by
      simp [same]
    rw [lex_append_of_comment inComment (by simp), lex_comment sameLine, List.mem_append] at member
    exact member.elim (probeFact_not_mem firstShort) (probeFact_not_mem restShort)

/-- The section can only be where it was put. -/
theorem start_of_probe {length : ℕ} {before inserted after first rest : List Char}
    (parses : Parses inserted (.list [.atom ":init".toList, .atom (probeFact length)]))
    (same : first ++ (probe length ++ rest) = before ++ (inserted ++ after))
    (firstShort : first.length ≤ length) (restShort : rest.length ≤ length) :
    ∃ lead, first = before ++ lead ∧ tokens lead = [] := by
  -- the tokens of what is inserted, from its first parenthesis
  obtain ⟨lead, inner, rfl, -, isLead, isInner⟩ := @exists_bracket _ _ _ _ [] _ parses
  refine ⟨lead, ?_, isLead⟩
  obtain ⟨facts, close, rfl, code, isFacts, -⟩ :=
    @exists_bracket _ _ _ _ [.word ":init".toList, .word (probeFact length)] _ isInner
  have follows : lex false [] (facts ++ bracketChar false :: (close ++ after)) =
      .word ":init".toList :: .word (probeFact length) :: .bracket false :: lex false [] (close ++ after) := by
    rw [lex_append_bracket false [] facts _ false code, isFacts]
    rfl
  have tooLong : ∀ text : List Char, text.length ≤ length →
      text ≠ facts ++ bracketChar false :: (close ++ after) := by
    rintro text short rfl
    have member : Token.word (probeFact length) ∈ lex false [] (facts ++ bracketChar false :: (close ++ after)) := by
      simp [follows]
    exact probeFact_not_mem short member
  have aligned : first ++ bracketChar true :: ((probeInner length ++ [bracketChar false]) ++ rest) =
      (before ++ lead) ++ bracketChar true :: (facts ++ bracketChar false :: (close ++ after)) := by
    simpa [probe] using same
  obtain ⟨gap, isBefore, isRest⟩ | ⟨gap, isFirst, isRest⟩ := List.append_eq_append_iff.mp aligned
  · cases gap with
    | nil => simpa using isBefore.symm
    | cons char gap =>
      -- the parenthesis of what is inserted would be in the section or after it
      simp only [List.cons_append, List.cons.injEq] at isRest
      obtain ⟨middle, isGap, isTail⟩ | ⟨middle, isProbe, isTail⟩ := List.append_eq_append_iff.mp isRest.2
      · have short : (facts ++ bracketChar false :: (close ++ after)).length ≤ length := by
          have lengths := congrArg List.length isTail
          simp only [List.length_append, List.length_cons] at lengths ⊢
          omega
        exact absurd rfl (tooLong _ short)
      · cases middle with
        | nil =>
          have short : (facts ++ bracketChar false :: (close ++ after)).length ≤ length := by
            have lengths := congrArg List.length isTail
            simp only [List.length_append, List.length_cons, List.nil_append] at lengths ⊢
            omega
          exact absurd rfl (tooLong _ short)
        | cons other middle =>
          simp only [List.cons_append, List.cons.injEq] at isTail
          have member : bracketChar true ∈ probeInner length ++ [bracketChar false] := by
            simp [isProbe, isTail.1]
          exact absurd member (leftParenthesis_not_mem_probe length)
  · cases gap with
    | nil => simpa using isFirst
    | cons char gap =>
      simp only [List.cons_append, List.cons.injEq] at isRest
      have gapShort : gap.length ≤ length := by
        have lengths := congrArg List.length isFirst
        simp only [List.length_append, List.length_cons] at lengths
        omega
      have isInserted : facts ++ bracketChar false :: (close ++ after) = gap ++ (probe length ++ rest) := by
        simpa [probe] using isRest.2
      rw [isInserted] at follows
      exact absurd follows (lex_ne_of_probe gapShort restShort)

namespace ProblemText

variable {problem : ProblemText}

/-- A problem in which every fitting replacement replaces its section has it at the first accepted place. -/
theorem located_of_replaces
    (replaces : ∀ length, problem.Replaces (probe length) (.list [.atom ":init".toList, .atom (probeFact length)])) :
    problem.Located := by
  obtain ⟨inserted, returns, parses, -⟩ := replaces problem.text.length
  have shape := (fits_probe problem problem.text.length).shape
  obtain ⟨isNormalized, -, -⟩ := normalizeInit_of_wellShaped (readsInit_probe _) shape
  have isBlock : initBlock true (probe problem.text.length) = probe problem.text.length :=
    strip_of_delimited (delimited_probe _)
  rw [isBlock] at isNormalized
  cases found : findBalancedSection problem.text initName with
  | none => simp [replaceProblemInit, isNormalized, found] at returns
  | some place =>
    obtain ⟨start, stop⟩ := place
    obtain ⟨accepts, first, -⟩ := findBalancedSection_inv found
    have lines : List.intercalate ('\n' :: indentation problem.text start) (splitLines (probe problem.text.length)) =
        probe problem.text.length := by
      rw [splitLines, intercalate_splitLinesFrom, reline_of_single (single_probe _), List.nil_append]
      intro char isLast
      exact single_probe _ char (List.mem_of_getLast? isLast)
    simp only [replaceProblemInit, isNormalized, found, Option.bind_eq_bind, Option.bind_some, lines,
      Option.pure_def, Option.some.injEq] at returns
    obtain ⟨lead, isFirst, noTokens⟩ := start_of_probe parses returns (by simp) (by simp)
    -- nothing stands between the unchanged text and the section
    have noLead : lead = [] := by
      obtain ⟨inner, isOriginal, -⟩ := problem.delimited
      refine eq_nil_of_tokens noTokens (problem.text.drop start)
        ⟨inner ++ [bracketChar false] ++ problem.after, ?_⟩
      have whole := List.take_append_drop start problem.text
      rw [isFirst, List.append_assoc] at whole
      have tail := List.append_cancel_left (whole.trans (text.eq_1 problem))
      rw [tail, isOriginal]
      simp [bracketChar]
    have isStart : start = problem.before.length := by
      have lengths := congrArg List.length isFirst
      have inside := accepts.inside
      rw [noLead, List.append_nil, List.length_take] at lengths
      omega
    rw [isStart] at accepts first
    exact ⟨accepts, first⟩

/-- Every fitting replacement replaces the section exactly where it is located, and there nothing else does. -/
theorem replaces_iff (problem : ProblemText) :
    (problem.Located ↔ ∀ enclosed initText new, ReadsInit enclosed initText new → problem.Fits enclosed initText →
      problem.Replaces initText new) ∧
    (problem.Located → ∀ enclosed initText new, ReadsInit enclosed initText new →
      (problem.Replaces initText new ↔ problem.Fits enclosed initText)) := by
  refine ⟨⟨fun located enclosed initText new reads fits => replaces_of_fits located reads fits, ?_⟩, ?_⟩
  · intro replaces
    exact located_of_replaces fun length => replaces _ _ _ (readsInit_probe length) (fits_probe problem length)
  · intro located enclosed initText new reads
    exact ⟨fits_of_replaces located reads, replaces_of_fits located reads⟩

/-! ### Two texts that are not replaced -/

def fact (predicate object : String) : SExpression := .list [.atom predicate.toList, .atom object.toList]

/-- A section with the given fact. -/
def factSection (predicate object : String) : SExpression := .list [.atom ":init".toList, fact predicate object]

/-- All sections share one line. -/
def oneLine : ProblemText where
  before := "(define (problem p) (:objects a) ".toList
  original := "(:init (on a))".toList
  after := " (:goal (off a)))".toList
  front := [.atom "define".toList, fact "problem" "p", fact ":objects" "a"]
  initial := factSection "on" "a"
  back := [.list [.atom ":goal".toList, fact "off" "a"]]
  isInit := ⟨_, _, rfl, by decide +kernel⟩
  code := by decide +kernel
  delimited := ⟨":init (on a)".toList, by decide +kernel, by decide +kernel⟩
  opens := by decide +kernel
  parses := by unfold Parses; decide +kernel
  closes := by decide +kernel

/-- A comment before the section has another one. -/
def commentedInit : ProblemText where
  before := "; was (:init (up a))\n(define (problem p)\n ".toList
  original := "(:init (on a))".toList
  after := "\n (:goal (off a)))".toList
  front := [.atom "define".toList, fact "problem" "p"]
  initial := factSection "on" "a"
  back := [.list [.atom ":goal".toList, fact "off" "a"]]
  isInit := ⟨_, _, rfl, by decide +kernel⟩
  code := by decide +kernel
  delimited := ⟨":init (on a)".toList, by decide +kernel, by decide +kernel⟩
  opens := by decide +kernel
  parses := by unfold Parses; decide +kernel
  closes := by decide +kernel

def twoLines : List Char := "(:init\n (off a))".toList

/-- On one line the whole beginning of the problem is repeated before the second line of the replacement, and
a section in a comment is replaced instead of the section of the problem. -/
theorem oneLine_commentedInit_notReplaced :
    ReadsInit true twoLines (factSection "off" "a") ∧ ¬ oneLine.Replaces twoLines (factSection "off" "a") ∧
      ¬ commentedInit.Replaces twoLines (factSection "off" "a") := by
  refine ⟨.enclosed ⟨_, _, rfl, by decide +kernel⟩ (by unfold Parses; decide +kernel), ?_, ?_⟩
  · rintro ⟨inserted, returns, parses, -⟩
    have repeated : replaceProblemInit oneLine.text twoLines = some (oneLine.before ++
        (("(:init\n".toList ++ oneLine.before ++ " (off a))".toList) ++ oneLine.after)) := by decide +kernel
    rw [repeated, Option.some.injEq] at returns
    rw [← List.append_cancel_right (List.append_cancel_left returns)] at parses
    revert parses
    unfold Parses
    decide +kernel
  · rintro ⟨inserted, returns, -, -⟩
    have inComment : (replaceProblemInit commentedInit.text twoLines).map (List.take commentedInit.before.length) ≠
        some commentedInit.before := by decide +kernel
    simp [returns] at inComment

end ProblemText

end CutPlan.Controller
