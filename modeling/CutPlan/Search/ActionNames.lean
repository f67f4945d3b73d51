import CutPlan.Search.ActionChain
import Mathlib.Data.List.TakeWhile

/-! # Names of actions

Two strings name the same action if, without white space around them and one pair of parentheses,
they have the same words up to letter case.  The table of the evaluator keeps the last operator of
each name, which answers for all of them.
-/

namespace CutPlan.Search

/-! ## When two strings are the same name -/

def Blank (characters : List Char) : Prop := ∀ character ∈ characters, isSpace character = true

def Encloses (characters core : List Char) : Prop :=
  ∃ before after, Blank before ∧ Blank after ∧
    characters = before ++ '(' :: (core ++ ')' :: after)

/-- What is between the enclosing parentheses, or everything where there are none. -/
def IsCore (characters core : List Char) : Prop :=
  Encloses characters core ∨ (∀ inner, ¬ Encloses characters inner) ∧ core = characters

/-- Words from the pieces between white space. -/
def wordsOf (pieces : List (List Char)) : List (List Char) :=
  (pieces.filter (!·.isEmpty)).map fun piece => piece.map Char.toLower

def words (characters : List Char) : List (List Char) := wordsOf (characters.splitOnP isSpace)

def SameName (left right : String) : Prop :=
  ∃ leftCore rightCore, IsCore left.toList leftCore ∧ IsCore right.toList rightCore ∧
    words leftCore = words rightCore

/-! ## The loop joins the words -/

def joined : List (List Char) → List Char
  | [] => []
  | word :: rest => word ++ rest.flatMap fun next => ' ' :: next

theorem splitOnP_eq_cons (characters : List Char) :
    ∃ first rest, characters.splitOnP isSpace = first :: rest := by
  cases pieces : characters.splitOnP isSpace with
  | nil => exact absurd pieces (List.splitOnP_ne_nil _ _)
  | cons first rest => exact ⟨first, rest, rfl⟩

theorem isSpace_toLower {character : Char} (solid : isSpace character = false) :
    isSpace character.toLower = false := by
  by_cases upper : character.isUpper = true
  · have inRange : 65 ≤ character.toNat ∧ character.toNat ≤ 90 := by
      obtain ⟨atLeast, atMost⟩ := of_decide_eq_true upper
      exact ⟨atLeast, atMost⟩
    have letter : ∀ code, 65 ≤ code → code ≤ 90 →
        isSpace (Char.toLower (Char.ofNat code)) = false := by
      intro code lower upper
      interval_cases code <;> decide
    rw [← Char.ofNat_toNat character]
    exact letter character.toNat inRange.1 inRange.2
  · have same : character.toLower = character := by
      have outOfRange : ¬ (character.val ≥ 'A'.val ∧ character.val ≤ 'Z'.val) := by
        intro inRange
        exact upper (decide_eq_true inRange)
      exact dif_neg outOfRange
    rw [same, solid]

theorem solid_of_mem_splitOnP {characters piece : List Char}
    (member : piece ∈ characters.splitOnP isSpace) :
    ∀ character ∈ piece, isSpace character = false := by
  induction characters generalizing piece with
  | nil => simp_all
  | cons character characters inductionHypothesis =>
    obtain ⟨first, rest, pieces⟩ := splitOnP_eq_cons characters
    rw [List.splitOnP_cons_eq_if_modifyHead, pieces] at member
    rw [pieces] at inductionHypothesis
    split at member
    · cases List.mem_cons.mp member with
      | inl isFirst => simp [isFirst]
      | inr later => exact inductionHypothesis later
    · rename_i solid
      rw [List.modifyHead_cons] at member
      cases List.mem_cons.mp member with
      | inl isFirst =>
        rw [isFirst]
        exact List.forall_mem_cons.mpr ⟨by simpa using solid, inductionHypothesis (by simp)⟩
      | inr later => exact inductionHypothesis (by simp [later])

@[simp] theorem wordsOf_nil_cons (pieces : List (List Char)) : wordsOf ([] :: pieces) = wordsOf pieces := rfl

@[simp] theorem wordsOf_cons_cons (character : Char) (piece : List Char) (pieces : List (List Char)) :
    wordsOf ((character :: piece) :: pieces) =
      (character.toLower :: piece.map Char.toLower) :: wordsOf pieces := rfl

/-- In the middle of a word, and between two words. -/
theorem collapseSpaces_started (characters : List Char) :
    ∀ normalized, normalized ≠ [] →
      (collapseSpaces characters normalized true =
        normalized ++ (words characters).flatMap fun next => ' ' :: next) ∧
      ∀ first rest, characters.splitOnP isSpace = first :: rest →
        collapseSpaces characters normalized false =
          normalized ++ first.map Char.toLower ++ (wordsOf rest).flatMap fun next => ' ' :: next := by
  induction characters with
  | nil =>
    intro normalized started
    constructor
    · simp [collapseSpaces, words, wordsOf]
    · intro first rest pieces
      simp only [List.splitOnP_nil, List.cons.injEq] at pieces
      obtain ⟨rfl, rfl⟩ := pieces
      simp [collapseSpaces, wordsOf]
  | cons character characters inductionHypothesis =>
    intro normalized started
    obtain ⟨first, rest, pieces⟩ := splitOnP_eq_cons characters
    have occupied : (!normalized.isEmpty) = true := by simpa using started
    by_cases space : isSpace character = true
    · have split : (character :: characters).splitOnP isSpace = [] :: first :: rest := by
        rw [List.splitOnP_cons_eq_if_modifyHead, if_pos space, pieces]
      have between := (inductionHypothesis normalized started).1
      simp only [words, pieces] at between
      constructor
      · simpa [collapseSpaces, space, occupied, words, split] using between
      · intro first' rest' pieces'
        rw [split, List.cons.injEq] at pieces'
        obtain ⟨rfl, rfl⟩ := pieces'
        simpa [collapseSpaces, space, occupied] using between
    · have split : (character :: characters).splitOnP isSpace = (character :: first) :: rest := by
        rw [List.splitOnP_cons_eq_if_modifyHead, if_neg space, pieces, List.modifyHead_cons]
      constructor
      · have within := (inductionHypothesis (normalized ++ [' '] ++ [character.toLower])
          (by simp)).2 first rest pieces
        simpa [collapseSpaces, space, words, split] using within
      · intro first' rest' pieces'
        rw [split, List.cons.injEq] at pieces'
        obtain ⟨rfl, rfl⟩ := pieces'
        have within := (inductionHypothesis (normalized ++ [character.toLower])
          (by simp)).2 first rest pieces
        simpa [collapseSpaces, space] using within

theorem collapseSpaces_eq (characters : List Char) :
    collapseSpaces characters [] false = joined (words characters) := by
  induction characters with
  | nil => rfl
  | cons character characters inductionHypothesis =>
    obtain ⟨first, rest, pieces⟩ := splitOnP_eq_cons characters
    by_cases space : isSpace character = true
    · simpa [collapseSpaces, space, words, List.splitOnP_cons_eq_if_modifyHead] using inductionHypothesis
    · have within := (collapseSpaces_started characters [character.toLower] (by simp)).2
        first rest pieces
      simpa [collapseSpaces, space, words, List.splitOnP_cons_eq_if_modifyHead, pieces, joined] using within

theorem solid_of_mem_words {characters : List Char} :
    ∀ word ∈ words characters, word ≠ [] ∧ ∀ character ∈ word, isSpace character = false := by
  intro word member
  obtain ⟨piece, isPiece, rfl⟩ := List.mem_map.mp member
  obtain ⟨inPieces, occupied⟩ := List.mem_filter.mp isPiece
  constructor
  · simpa using occupied
  · intro character inWord
    obtain ⟨source, inPiece, rfl⟩ := List.mem_map.mp inWord
    exact isSpace_toLower (solid_of_mem_splitOnP inPieces source inPiece)

theorem splitOnP_joined {list : List (List Char)}
    (solid : ∀ word ∈ list, word ≠ [] ∧ ∀ character ∈ word, isSpace character = false) :
    ((joined list).splitOnP isSpace).filter (!·.isEmpty) = list := by
  cases list with
  | nil => rfl
  | cons word rest =>
    have pieces : (joined (word :: rest)).splitOnP isSpace = word :: rest := by
      induction rest generalizing word with
      | nil => 
        simp only [List.forall_mem_cons] at solid
        simpa [joined] using List.splitOnP_eq_singleton solid.1.2
      | cons next rest inductionHypothesis =>
        rw [List.forall_mem_cons] at solid
        have together : joined (word :: next :: rest) = word ++ ' ' :: joined (next :: rest) := by
          simp [joined]
        rw [together, List.splitOnP_append_cons_of_forall_mem solid.1.2 ' ' (by decide),
          inductionHypothesis next solid.2]
    rw [pieces, List.filter_eq_self]
    intro piece member
    simpa using (solid piece member).1

theorem joined_words_inj {left right : List Char} :
    joined (words left) = joined (words right) ↔ words left = words right := by
  constructor
  · intro same
    rw [← splitOnP_joined (@solid_of_mem_words left), same,
      splitOnP_joined solid_of_mem_words]
  · exact congrArg joined

/-! ## Trimming and parentheses -/

theorem exists_trimSpaces (characters : List Char) :
    ∃ before after, Blank before ∧ Blank after ∧
      characters = before ++ trimSpaces characters ++ after := by
  refine ⟨characters.takeWhile isSpace,
    ((characters.dropWhile isSpace).reverse.takeWhile isSpace).reverse, ?_, ?_, ?_⟩
  · intro character member
    exact List.mem_takeWhile_imp member
  · intro character member
    exact List.mem_takeWhile_imp (List.mem_reverse.mp member)
  · have back : characters.dropWhile isSpace = trimSpaces characters ++
        ((characters.dropWhile isSpace).reverse.takeWhile isSpace).reverse := by
      rw [trimSpaces, ← List.reverse_append, List.takeWhile_append_dropWhile, List.reverse_reverse]
    rw [List.append_assoc, ← back, List.takeWhile_append_dropWhile]

theorem trimSpaces_enclosed {before after : List Char} (blankBefore : Blank before)
    (blankAfter : Blank after) (core : List Char) :
    trimSpaces (before ++ '(' :: (core ++ ')' :: after)) = '(' :: (core ++ [')']) := by
  have blankReverse : ∀ character ∈ after.reverse, isSpace character = true :=
    fun character member => blankAfter character (List.mem_reverse.mp member)
  rw [trimSpaces, List.dropWhile_append_of_pos blankBefore,
    List.dropWhile_cons_of_neg (by decide)]
  rw [List.reverse_cons, List.reverse_append, List.reverse_cons, List.append_assoc,
    List.append_assoc, List.dropWhile_append_of_pos blankReverse]
  rw [List.singleton_append, List.dropWhile_cons_of_neg (by decide)]
  simp

theorem words_blank_append {before : List Char} (blank : Blank before) (characters : List Char) :
    words (before ++ characters) = words characters := by
  induction before with
  | nil => rfl
  | cons character before inductionHypothesis =>
    obtain ⟨space, rest⟩ := List.forall_mem_cons.mp blank
    rw [← inductionHypothesis rest]
    simp [words, List.splitOnP_cons_eq_if_modifyHead, space]

theorem words_append_blank {after : List Char} (blank : Blank after) (characters : List Char) :
    words (characters ++ after) = words characters := by
  cases after with
  | nil => rw [List.append_nil]
  | cons character after =>
    obtain ⟨space, rest⟩ := List.forall_mem_cons.mp blank
    have none : words after = [] := by
      have empty := words_blank_append rest []
      rwa [List.append_nil] at empty
    simp only [words, List.splitOnP_append_cons _ _ space, wordsOf, List.filter_append,
      List.map_append] at none ⊢
    rw [none, List.append_nil]

theorem words_trimSpaces (characters : List Char) :
    words (trimSpaces characters) = words characters := by
  obtain ⟨before, after, blankBefore, blankAfter, split⟩ := exists_trimSpaces characters
  nth_rewrite 2 [split]
  rw [words_append_blank blankAfter, words_blank_append blankBefore]

theorem stripParentheses_enclosed (core : List Char) :
    stripParentheses ('(' :: (core ++ [')'])) = core := by
  have last : ('(' :: (core ++ [')'])).getLast? = some ')' := by
    rw [← List.cons_append, List.getLast?_concat]
  simp [stripParentheses, last]

theorem stripParentheses_cases (characters : List Char) :
    (∃ core, characters = '(' :: (core ++ [')'])) ∨ stripParentheses characters = characters := by
  by_cases enclosed :
      characters.length > 1 ∧ characters.head? = some '(' ∧ characters.getLast? = some ')'
  · obtain ⟨long, opened, closed⟩ := enclosed
    cases characters with
    | nil => simp at long
    | cons first rest =>
      cases rest using List.reverseRecOn with
      | nil => simp at long
      | append_singleton core last =>
        rw [← List.cons_append, List.getLast?_concat] at closed
        simp only [List.head?_cons, Option.some.injEq] at opened closed
        exact .inl ⟨core, by rw [opened, closed]⟩
  · exact .inr (if_neg enclosed)

/-- The core has the words that the loop of the evaluator joins. -/
theorem words_of_isCore {characters core : List Char} (isCore : IsCore characters core) :
    words core = words (stripParentheses (trimSpaces characters)) := by
  cases isCore with
  | inl encloses =>
    obtain ⟨before, after, blankBefore, blankAfter, rfl⟩ := encloses
    rw [trimSpaces_enclosed blankBefore blankAfter, stripParentheses_enclosed]
  | inr whole =>
    obtain ⟨open_, rfl⟩ := whole
    obtain ⟨before, after, blankBefore, blankAfter, split⟩ := exists_trimSpaces core
    cases stripParentheses_cases (trimSpaces core) with
    | inl enclosed =>
      obtain ⟨inner, enclosed⟩ := enclosed
      exact absurd ⟨before, after, blankBefore, blankAfter, by simpa [enclosed] using split⟩
        (open_ inner)
    | inr unchanged => rw [unchanged, words_trimSpaces]

theorem exists_isCore (characters : List Char) : ∃ core, IsCore characters core := by
  by_cases enclosed : ∃ core, Encloses characters core
  · obtain ⟨core, encloses⟩ := enclosed
    exact ⟨core, .inl encloses⟩
  · exact ⟨characters, .inr ⟨not_exists.mp enclosed, rfl⟩⟩

theorem normalizeOperatorName_eq_iff (left right : String) :
    normalizeOperatorName left = normalizeOperatorName right ↔ SameName left right := by
  have joins : normalizeOperatorName left = normalizeOperatorName right ↔
      words (stripParentheses (trimSpaces left.toList)) =
        words (stripParentheses (trimSpaces right.toList)) := by
    rw [← joined_words_inj, ← collapseSpaces_eq, ← collapseSpaces_eq]
    exact String.ofList_inj
  rw [joins]
  constructor
  · intro same
    obtain ⟨leftCore, isLeft⟩ := exists_isCore left.toList
    obtain ⟨rightCore, isRight⟩ := exists_isCore right.toList
    exact ⟨leftCore, rightCore, isLeft, isRight,
      by rw [words_of_isCore isLeft, words_of_isCore isRight, same]⟩
  · intro sameName
    obtain ⟨leftCore, rightCore, isLeft, isRight, same⟩ := sameName
    rw [← words_of_isCore isLeft, ← words_of_isCore isRight, same]

/-! ## Which operator answers for a name -/

namespace Task

variable {S O : Type} (task : Task S O)

/-- The operators that a string may mean. -/
def Named (rawAction : String) (op : O) : Prop :=
  op ∈ task.operators ∧ SameName (task.name op) rawAction

def ResolvesExactly (state : S) (rawAction : String) : Prop :=
  ((∃ op, task.resolveAction state rawAction = .found op ∧ task.Named rawAction op ∧
      task.isApplicable op state = true) ↔
    ∃ op, task.Named rawAction op ∧ task.isApplicable op state = true) ∧
  ((∃ op, task.resolveAction state rawAction = .inapplicableAction op) ↔
    (∃ op, task.Named rawAction op) ∧
      ∀ op, task.Named rawAction op → task.isApplicable op state = false) ∧
  (task.resolveAction state rawAction = .unknownAction ↔ ∀ op, ¬ task.Named rawAction op)

/-- The operator of a name after which the list has no other. -/
def LastNamed (rawAction : String) (op : O) : Prop :=
  ∃ before after, task.operators = before ++ op :: after ∧ SameName (task.name op) rawAction ∧
    ∀ later ∈ after, ¬ SameName (task.name later) rawAction

variable {task}

theorem LastNamed.named {rawAction : String} {op : O} (last : task.LastNamed rawAction op) :
    task.Named rawAction op := by
  obtain ⟨before, after, split, sameName, none⟩ := last
  exact ⟨by simp [split], sameName⟩

theorem operatorByName_eq_none {rawAction : String}
    (missing : task.operatorByName (normalizeOperatorName rawAction) = none) (op : O) :
    ¬ task.Named rawAction op := by
  intro named
  obtain ⟨member, sameName⟩ := named
  have empty := List.getLast?_eq_none_iff.mp missing
  have kept := List.filter_eq_nil_iff.mp empty op member
  simp [normalizeOperatorName_eq_iff, sameName] at kept

theorem operatorByName_eq_some_iff {rawAction : String} {op : O} :
    task.operatorByName (normalizeOperatorName rawAction) = some op ↔
      task.LastNamed rawAction op := by
  unfold operatorByName LastNamed
  rw [← List.head?_reverse, ← List.filter_reverse, List.head?_filter, List.find?_eq_some_iff_append]
  constructor
  · intro found
    obtain ⟨isNamed, after, before, split, none⟩ := found
    refine ⟨before.reverse, after.reverse, ?_, ?_, ?_⟩
    · rw [← List.reverse_reverse task.operators, split]
      simp
    · exact (normalizeOperatorName_eq_iff _ _).mp (by simpa using isNamed)
    · intro later member sameName
      have other := none later (List.mem_reverse.mp member)
      simp [(normalizeOperatorName_eq_iff _ _).mpr sameName] at other
  · intro last
    obtain ⟨before, after, split, isNamed, none⟩ := last
    refine ⟨by simpa using (normalizeOperatorName_eq_iff _ _).mpr isNamed,
      after.reverse, before.reverse, by simp [split], ?_⟩
    intro later member
    have other := none later (List.mem_reverse.mp member)
    simpa [normalizeOperatorName_eq_iff] using other

/-- The answer is right exactly if the last operator of the name is applicable or none of that name
is. -/
theorem resolvesExactly_iff (task : Task S O) (state : S) (rawAction : String) :
    task.ResolvesExactly state rawAction ↔
      ∀ last, task.LastNamed rawAction last →
        (∃ op, task.Named rawAction op ∧ task.isApplicable op state = true) →
        task.isApplicable last state = true := by
  cases answer : task.operatorByName (normalizeOperatorName rawAction) with
  | none =>
    have missing := operatorByName_eq_none answer
    have resolved : task.resolveAction state rawAction = .unknownAction := by
      simp [resolveAction, answer]
    constructor
    · intro _ last isLast
      exact absurd isLast.named (missing last)
    · intro _
      simp [ResolvesExactly, resolved, missing]
  | some op =>
    have isLast := operatorByName_eq_some_iff.mp answer
    have named := isLast.named
    -- the last operator of a name is one operator
    have only : ∀ last, task.LastNamed rawAction last → last = op := by
      intro last other
      rw [← operatorByName_eq_some_iff, answer, Option.some.injEq] at other
      exact other.symm
    cases applicable : task.isApplicable op state with
    | true =>
      have resolved : task.resolveAction state rawAction = .found op := by
        simp [resolveAction, answer, applicable]
      constructor
      · intro _ last other _
        rw [only last other, applicable]
      · intro _
        refine ⟨⟨fun _ => ⟨op, named, applicable⟩, fun _ => ⟨op, resolved, named, applicable⟩⟩, ?_, ?_⟩
        · constructor
          · intro inapplicable
            simp [resolved] at inapplicable
          · intro none
            simp [none.2 op named] at applicable
        · constructor
          · intro unknown
            simp [resolved] at unknown
          · intro none
            exact absurd named (none op)
    | false =>
      have resolved : task.resolveAction state rawAction = .inapplicableAction op := by
        simp [resolveAction, answer, applicable]
      constructor
      · intro exactly last _ other
        obtain ⟨answered, found, _⟩ := exactly.1.mpr other
        simp [resolved] at found
      · intro decides
        -- no operator of the name is applicable, or the last one would be
        have none : ∀ other, task.Named rawAction other → task.isApplicable other state = false := by
          intro other otherNamed
          by_contra otherApplicable
          have lastApplicable := decides op isLast ⟨other, otherNamed, by simpa using otherApplicable⟩
          simp [applicable] at lastApplicable
        refine ⟨⟨?_, ?_⟩, ⟨fun _ => ⟨⟨op, named⟩, none⟩, fun _ => ⟨op, resolved⟩⟩, ?_⟩
        · intro found
          obtain ⟨answered, found, _⟩ := found
          simp [resolved] at found
        · intro found
          obtain ⟨other, otherNamed, otherApplicable⟩ := found
          simp [none other otherNamed] at otherApplicable
        · constructor
          · intro unknown
            simp [resolved] at unknown
          · intro missing
            exact absurd named (missing op)

/-- Two copies of an action, the first of which is applicable. -/
def copiesTask : Task Unit Bool where
  initialState := ()
  operators := [true, false]
  name := fun _ => "open door"
  isAxiom := fun _ => false
  cost := fun _ => 1
  isUnitCost := true
  isApplicable := fun op _ => op
  getSuccessorState := fun state _ => state
  testGoal := fun _ => false
  violatesGlobalConstraint := fun _ => false
  operators_not_axiom := fun _ _ => rfl

theorem copiesTask_unresolved : ¬ copiesTask.ResolvesExactly () "(Open  Door)" := by
  intro exactly
  have named : copiesTask.Named "(Open  Door)" true := by
    refine ⟨by decide, (normalizeOperatorName_eq_iff _ _).mp ?_⟩
    decide
  obtain ⟨op, found, _, applicable⟩ := exactly.1.mpr ⟨true, named, rfl⟩
  have last : copiesTask.operatorByName (normalizeOperatorName "(Open  Door)") = some false := by
    decide
  simp only [resolveAction, last] at found
  simp [copiesTask] at found

end Task

end CutPlan.Search
