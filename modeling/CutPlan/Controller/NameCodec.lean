import Mathlib

/-! # Names in the prompt and in the plan

How the names of a domain and a problem are written in the prompt, and how the names in a generated plan
are read.
-/

namespace CutPlan.Controller

/-- Whether all elements of a list have a property is decided along the list, not over all characters. -/
local instance (priority := 2000) decidableForallMem {α : Type} (property : α → Prop) [DecidablePred property]
    (list : List α) : Decidable (∀ element ∈ list, property element) :=
  List.decidableBAll property list

/-- A character of a PDDL identifier. -/
def isIdentifierChar (char : Char) : Bool := char.isAlphanum || char = '-' || char = '_'

@[ext] structure Identifier where
  name : List Char
  nonempty : name ≠ []
  characters : ∀ char ∈ name, isIdentifierChar char = true
  deriving DecidableEq

/-! ## The translation -/

def lower (text : List Char) : List Char := text.map Char.toLower

def replace (old new : Char) (text : List Char) : List Char := text.map fun char => if char = old then new else char

/-- The nonempty texts between whitespace. -/
def splitWords (text : List Char) : List (List Char) := (text.splitOnP Char.isWhitespace).filter (!·.isEmpty)

def capitalize : List Char → List Char
  | [] => []
  | first :: rest => first.toUpper :: lower rest

def toPascalCase (pddlName : List Char) : List Char :=
  let clean := pddlName.filter (· ≠ '?')
  let words := splitWords (lower (replace '_' ' ' (replace '-' ' ' clean)))
  words.flatMap capitalize

def toSnakeCase (pddlName : List Char) : List Char :=
  let clean := pddlName.filter (· ≠ '?')
  lower (replace '-' '_' clean)

def actionPrefix : List Char := "action_".toList

/-- The name under which the prompt shows an action. -/
def callName (rawActionName : List Char) : List Char := actionPrefix ++ toPascalCase rawActionName

def isLowerOrDigit (char : Char) : Bool := char.isLower || char.isDigit

/-- A dash between a small letter or digit and a capital letter. -/
def insertBoundaries : List Char → List Char
  | [] => []
  | [char] => [char]
  | char :: next :: rest =>
    if isLowerOrDigit char && next.isUpper then char :: '-' :: insertBoundaries (next :: rest)
    else char :: insertBoundaries (next :: rest)

def pythonActionToPddl (pythonName : List Char) : List Char :=
  let rawName := pythonName.drop actionPrefix.length
  lower (replace '_' '-' (insertBoundaries rawName))

/-- What the planning library knows of a domain and a problem.  It may change the case of the names it reads. -/
structure PlanningNames where
  actions : List Identifier
  objects : List Identifier
  spelling : Identifier → Identifier
  sameName : ∀ identifier, lower (spelling identifier).name = lower identifier.name
  actionsNodup : (actions.map spelling).Nodup
  objectsNodup : (objects.map spelling).Nodup

namespace PlanningNames

variable (names : PlanningNames)

/-- The lookup of an object by its name. -/
def object (name : List Char) : Option Identifier :=
  names.objects.find? fun object => (names.spelling object).name = name

/-- The names in the prompt stand for the names of the domain and the problem. -/
structure Recovered : Prop where
  actions : ∀ action ∈ names.actions,
    pythonActionToPddl (callName action.name) = (names.spelling action).name
  distinct : ∀ first ∈ names.actions, ∀ second ∈ names.actions,
    callName first.name = callName second.name → first = second
  objects : ∀ object ∈ names.objects, names.object (toSnakeCase object.name) = some object

end PlanningNames

/-! ## Names that are recovered -/

def isSingleLetter : List Char → Bool
  | [char] => char.isLower
  | _ => false

def startsWithLetter : List Char → Bool
  | [] => false
  | first :: _ => first.isLower

/-- A dash is put between two words. -/
def Separated (word next : List Char) : Prop := isSingleLetter word = false ∧ startsWithLetter next = true

instance (word next : List Char) : Decidable (Separated word next) :=
  inferInstanceAs (Decidable (_ ∧ _))

/-- Words of small letters and digits with dashes between them.  A word after a dash starts with a letter, and
a word before a dash is not a single letter. -/
def DashedName (name : List Char) : Prop :=
  ∃ words : List (List Char), words ≠ [] ∧ (∀ word ∈ words, word ≠ [] ∧ ∀ char ∈ word, isLowerOrDigit char = true) ∧
    words.IsChain Separated ∧ name = ['-'].intercalate words

/-- A name in small letters without dashes. -/
def PlainName (name : List Char) : Prop := ∀ char ∈ name, char ≠ '-' ∧ char.isUpper = false

/-! ## Characters -/

/-- Identifiers are ASCII. -/
theorem isAscii_of_identifierChar {char : Char} (isChar : isIdentifierChar char = true) : char.toNat < 128 := by
  simp only [isIdentifierChar, Char.isAlphanum, Char.isAlpha, Char.isUpper, Char.isLower, Char.isDigit,
    Bool.or_eq_true, decide_eq_true_eq, Bool.and_eq_true, ge_iff_le, UInt32.le_iff_toNat_le] at isChar
  obtain ((((⟨_, high⟩ | ⟨_, high⟩) | ⟨_, high⟩) | rfl) | rfl) := isChar
  · exact lt_of_le_of_lt high (by decide)
  · exact lt_of_le_of_lt high (by decide)
  · exact lt_of_le_of_lt high (by decide)
  · decide
  · decide

/-- What holds of each ASCII character holds of the characters of identifiers. -/
theorem forall_identifierChar (property : Char → Prop)
    (holds : ∀ code : Fin 128, isIdentifierChar (Char.ofNat code) = true → property (Char.ofNat code))
    {char : Char} (isChar : isIdentifierChar char = true) : property char := by
  have isCode := holds ⟨char.toNat, isAscii_of_identifierChar isChar⟩
  simp only [Char.ofNat_toNat] at isCode
  exact isCode isChar

/-- What a character becomes before the words are split. -/
def spaced (char : Char) : Char := if char = '-' ∨ char = '_' then ' ' else char.toLower

theorem spaced_cases {char : Char} (isChar : isIdentifierChar char = true) :
    spaced char = ' ' ∧ (char = '-' ∨ char = '_') ∨
      isLowerOrDigit (spaced char) = true ∧ char ≠ '-' ∧ char ≠ '_' :=
  forall_identifierChar (fun char => spaced char = ' ' ∧ (char = '-' ∨ char = '_') ∨
    isLowerOrDigit (spaced char) = true ∧ char ≠ '-' ∧ char ≠ '_') (by decide +kernel) isChar

theorem spaced_toLower {char : Char} (isChar : isIdentifierChar char = true) :
    spaced char.toLower = spaced char :=
  forall_identifierChar (fun char => spaced char.toLower = spaced char) (by decide +kernel) isChar

theorem identifierChar_of_lowerOrDigit {char : Char} (isPlain : isLowerOrDigit char = true) :
    isIdentifierChar char = true := by
  simp only [isLowerOrDigit, Bool.or_eq_true] at isPlain
  obtain isLower | isDigit := isPlain
  · simp [isIdentifierChar, Char.isAlphanum, Char.isAlpha, isLower]
  · simp [isIdentifierChar, Char.isAlphanum, isDigit]

/-- The characters of words. -/
structure WordChar (char : Char) : Prop where
  notSpace : char.isWhitespace = false
  notDash : char ≠ '-'
  notUnderscore : char ≠ '_'
  spaced : spaced char = char
  lower : char.toLower = char
  notUpper : char.isUpper = false

theorem wordChar {char : Char} (isPlain : isLowerOrDigit char = true) : WordChar char := by
  have facts := forall_identifierChar (fun char => isLowerOrDigit char = true →
    char.isWhitespace = false ∧ char ≠ '-' ∧ char ≠ '_' ∧ spaced char = char ∧ char.toLower = char ∧
      char.isUpper = false) (by decide +kernel) (identifierChar_of_lowerOrDigit isPlain)
  obtain ⟨notSpace, notDash, notUnderscore, spaced, lower, notUpper⟩ := facts isPlain
  exact ⟨notSpace, notDash, notUnderscore, spaced, lower, notUpper⟩

/-- The first characters of capitalised words. -/
structure CapitalChar (char : Char) : Prop where
  lower : char.toUpper.toLower = char
  notUnderscore : char.toUpper ≠ '_'
  isUpper : char.toUpper.isUpper = char.isLower
  isLowerOrDigit : isLowerOrDigit char.toUpper = !char.isLower

theorem capitalChar {char : Char} (isPlain : isLowerOrDigit char = true) : CapitalChar char := by
  have facts := forall_identifierChar (fun char => isLowerOrDigit char = true →
    char.toUpper.toLower = char ∧ char.toUpper ≠ '_' ∧ char.toUpper.isUpper = char.isLower ∧
      isLowerOrDigit char.toUpper = !char.isLower) (by decide +kernel) (identifierChar_of_lowerOrDigit isPlain)
  obtain ⟨lower, notUnderscore, isUpper, isLowerOrDigit⟩ := facts isPlain
  exact ⟨lower, notUnderscore, isUpper, isLowerOrDigit⟩

/-! ## Words -/

/-- The texts that become words. -/
def IsWord (word : List Char) : Prop := word ≠ [] ∧ ∀ char ∈ word, isLowerOrDigit char = true

theorem splitWords_space (first second : List Char) :
    splitWords (first ++ ' ' :: second) = splitWords first ++ splitWords second := by
  rw [splitWords, List.splitOnP_append_cons first second (by decide), List.filter_append]
  rfl

theorem splitWords_word {word : List Char} (isWord : IsWord word) : splitWords word = [word] := by
  rw [splitWords, List.splitOnP_eq_singleton fun char isChar => (wordChar (isWord.2 char isChar)).notSpace]
  simp [isWord.1]

theorem splitWords_nil : splitWords [] = [] := rfl

theorem splitOnP_spaced {name : List Char} (characters : ∀ char ∈ name, isIdentifierChar char = true) :
    (∀ piece ∈ (name.map spaced).splitOnP Char.isWhitespace, ∀ char ∈ piece, isLowerOrDigit char = true) ∧
      ((name.map spaced).splitOnP Char.isWhitespace).length = name.count '-' + name.count '_' + 1 := by
  induction name with
  | nil => simp
  | cons char name inductionHypothesis =>
    rw [List.forall_mem_cons] at characters
    obtain ⟨pieces, count⟩ := inductionHypothesis characters.2
    rw [List.map_cons, List.splitOnP_cons_eq_if_modifyHead]
    obtain ⟨isSpace, isSeparator⟩ | ⟨isPlain, notDash, notUnderscore⟩ := spaced_cases characters.1
    · rw [isSpace, if_pos (by decide), List.forall_mem_cons, List.length_cons, count]
      refine ⟨⟨by simp, pieces⟩, ?_⟩
      obtain rfl | rfl := isSeparator
      · simp only [List.count_cons_self, List.count_cons_of_ne (show '-' ≠ '_' by decide)]
        omega
      · simp only [List.count_cons_self, List.count_cons_of_ne (show '_' ≠ '-' by decide)]
        omega
    · rw [(wordChar isPlain).notSpace]
      simp only [Bool.false_eq_true, if_false, List.length_modifyHead, List.count_cons_of_ne notDash,
        List.count_cons_of_ne notUnderscore]
      refine ⟨?_, count⟩
      obtain ⟨first, rest, isList⟩ := List.exists_cons_of_ne_nil
        (List.splitOnP_ne_nil Char.isWhitespace (name.map spaced))
      rw [isList] at pieces ⊢
      rw [List.forall_mem_cons] at pieces
      rw [List.modifyHead_cons, List.forall_mem_cons, List.forall_mem_cons]
      exact ⟨⟨isPlain, pieces.1⟩, pieces.2⟩

/-- The words of an identifier in the prompt. -/
def promptWords (name : List Char) : List (List Char) := splitWords (name.map spaced)

/-- The words of an identifier, and how many there are. -/
theorem promptWords_bound {name : List Char} (characters : ∀ char ∈ name, isIdentifierChar char = true) :
    (∀ word ∈ promptWords name, IsWord word) ∧
      (promptWords name).length ≤ name.count '-' + name.count '_' + 1 := by
  obtain ⟨pieces, count⟩ := splitOnP_spaced characters
  constructor
  · intro word isWord
    obtain ⟨isPiece, nonempty⟩ := List.mem_filter.mp isWord
    exact ⟨by simpa using nonempty, pieces word isPiece⟩
  · rw [← count]
    exact List.length_filter_le _ _

theorem splitWords_intercalate {words : List (List Char)} (areWords : ∀ word ∈ words, IsWord word) :
    splitWords ([' '].intercalate words) = words := by
  induction words with
  | nil => rfl
  | cons first rest inductionHypothesis =>
    rw [List.forall_mem_cons] at areWords
    cases rest with
    | nil => simpa [List.intercalate] using splitWords_word areWords.1
    | cons second rest =>
      have separated : [' '].intercalate (first :: second :: rest) =
          first ++ ' ' :: [' '].intercalate (second :: rest) := by simp [List.intercalate]
      rw [separated, splitWords_space, splitWords_word areWords.1, inductionHypothesis areWords.2]
      rfl

/-! ## Reading a call name -/

/-- Words with a dash where the names in a plan get one. -/
def joined : List (List Char) → List Char
  | [] => []
  | [word] => word
  | word :: next :: rest =>
    if Separated word next then word ++ '-' :: joined (next :: rest)
    else word ++ joined (next :: rest)

/-- What is put between a character and what follows it. -/
def boundary (last : Char) : List Char → List Char
  | [] => []
  | next :: _ => if isLowerOrDigit last && next.isUpper then ['-'] else []

theorem insertBoundaries_append {first : Char} {rest : List Char} (noCapitals : ∀ char ∈ rest, char.isUpper = false)
    (tail : List Char) :
    insertBoundaries (first :: rest ++ tail) =
      first :: rest ++ (boundary ((first :: rest).getLast (List.cons_ne_nil first rest)) tail ++
        insertBoundaries tail) := by
  induction rest generalizing first with
  | nil =>
    cases tail with
    | nil => rfl
    | cons next tail =>
      rw [List.cons_append, List.nil_append, insertBoundaries, List.getLast_singleton, boundary]
      split <;> rfl
  | cons second rest inductionHypothesis =>
    rw [List.forall_mem_cons] at noCapitals
    have inside : (isLowerOrDigit first && second.isUpper) = false := by simp [noCapitals.1]
    have continues := @inductionHypothesis second noCapitals.2
    rw [List.cons_append] at continues
    rw [List.cons_append, List.cons_append, insertBoundaries, inside, if_neg (by decide), continues,
      List.getLast_cons (List.cons_ne_nil second rest)]
    rfl

theorem capitalize_word {first : Char} {rest : List Char} (isWord : IsWord (first :: rest)) :
    capitalize (first :: rest) = first.toUpper :: rest := by
  rw [capitalize, lower]
  congr 1
  exact (List.map_congr_left fun char isChar =>
    (wordChar (isWord.2 char (List.mem_cons_of_mem _ isChar))).lower).trans (List.map_id rest)

theorem boundary_word {first : Char} {rest : List Char} (isWord : IsWord (first :: rest)) {next : List Char}
    (isNext : IsWord next) (tail : List Char) :
    boundary ((first.toUpper :: rest).getLast (List.cons_ne_nil _ rest)) (capitalize next ++ tail) =
      if Separated (first :: rest) next then ['-'] else [] := by
  cases next with
  | nil => exact absurd rfl isNext.1
  | cons nextFirst nextRest =>
    have starts := (capitalChar (isNext.2 nextFirst (List.mem_cons_self ..))).isUpper
    rw [capitalize, List.cons_append, boundary, starts]
    cases rest with
    | nil =>
      have ends := (capitalChar (isWord.2 first (List.mem_cons_self ..))).isLowerOrDigit
      rw [List.getLast_singleton, ends]
      simp only [Separated, isSingleLetter, startsWithLetter, Bool.and_eq_true, Bool.not_eq_true']
      exact if_congr Iff.rfl rfl rfl
    | cons second rest =>
      have ends := isWord.2 _ (List.mem_cons_of_mem first (List.getLast_mem (List.cons_ne_nil second rest)))
      rw [List.getLast_cons (List.cons_ne_nil second rest), ends]
      simp [Separated, isSingleLetter, startsWithLetter]

/-- Reading undoes the capital letters. -/
theorem lower_capitalize {word : List Char} (isWord : IsWord word) :
    lower (replace '_' '-' (capitalize word)) = word := by
  cases word with
  | nil => rfl
  | cons first rest =>
    have isFirst := capitalChar (isWord.2 first (List.mem_cons_self ..))
    rw [capitalize_word isWord, lower, replace, List.map_map, List.map_cons]
    congr 1
    · simp [isFirst.notUnderscore, isFirst.lower]
    · refine (List.map_congr_left fun char isChar => ?_).trans (List.map_id rest)
      have isChar := wordChar (isWord.2 char (List.mem_cons_of_mem _ isChar))
      simp [isChar.notUnderscore, isChar.lower]

theorem lower_replace_append (first second : List Char) :
    lower (replace '_' '-' (first ++ second)) = lower (replace '_' '-' first) ++ lower (replace '_' '-' second) := by
  simp [lower, replace]

theorem lower_insertBoundaries {words : List (List Char)} (areWords : ∀ word ∈ words, IsWord word) :
    lower (replace '_' '-' (insertBoundaries (words.flatMap capitalize))) = joined words := by
  induction words with
  | nil => rfl
  | cons word words inductionHypothesis =>
    rw [List.forall_mem_cons] at areWords
    obtain ⟨first, rest, rfl⟩ := List.exists_cons_of_ne_nil areWords.1.1
    have noCapitals : ∀ char ∈ rest, char.isUpper = false := fun char isChar =>
      (wordChar (areWords.1.2 char (List.mem_cons_of_mem _ isChar))).notUpper
    have read := lower_capitalize areWords.1
    rw [capitalize_word areWords.1] at read
    rw [List.flatMap_cons, capitalize_word areWords.1, insertBoundaries_append noCapitals, lower_replace_append,
      lower_replace_append, inductionHypothesis areWords.2, read]
    cases words with
    | nil => simp [joined, boundary, lower, replace]
    | cons next words =>
      rw [List.flatMap_cons, boundary_word areWords.1 (areWords.2 next (List.mem_cons_self ..)), joined]
      split
      · rfl
      · rfl

/-! ## How many dashes there are -/

theorem count_word {word : List Char} (isWord : IsWord word) : word.count '-' = 0 := by
  rw [List.count_eq_zero]
  exact fun isDash => (wordChar (isWord.2 '-' isDash)).notDash rfl

theorem joined_cons (word next : List Char) (rest : List (List Char)) :
    joined (word :: next :: rest) =
      word ++ ((if Separated word next then ['-'] else []) ++ joined (next :: rest)) := by
  rw [joined]
  split <;> rfl

theorem count_joined {words : List (List Char)} (areWords : ∀ word ∈ words, IsWord word) (nonempty : words ≠ []) :
    (joined words).count '-' + 1 ≤ words.length ∧
      ((joined words).count '-' + 1 = words.length → words.IsChain Separated) := by
  induction words with
  | nil => exact absurd rfl nonempty
  | cons word words inductionHypothesis =>
    rw [List.forall_mem_cons] at areWords
    have noDash := count_word areWords.1
    cases words with
    | nil =>
      rw [joined, noDash]
      exact ⟨le_refl _, fun _ => List.isChain_singleton word⟩
    | cons next words =>
      obtain ⟨atMost, separated⟩ := inductionHypothesis areWords.2 (List.cons_ne_nil next words)
      rw [joined_cons, List.count_append, List.count_append, noDash, List.length_cons, List.isChain_cons_cons]
      split
      · rename_i isSeparated
        rw [List.count_singleton_self]
        exact ⟨by omega, fun all => ⟨isSeparated, separated (by omega)⟩⟩
      · rw [List.count_nil]
        exact ⟨by omega, fun all => by omega⟩

theorem joined_chain {words : List (List Char)} (separated : words.IsChain Separated) :
    joined words = ['-'].intercalate words := by
  induction words with
  | nil => rfl
  | cons word words inductionHypothesis =>
    cases words with
    | nil => simp [joined, List.intercalate]
    | cons next words =>
      rw [List.isChain_cons_cons] at separated
      rw [joined_cons, if_pos separated.1, inductionHypothesis separated.2]
      simp [List.intercalate]

theorem notMem_joined {words : List (List Char)} (areWords : ∀ word ∈ words, IsWord word) : '_' ∉ joined words := by
  induction words with
  | nil => exact List.not_mem_nil
  | cons word words inductionHypothesis =>
    rw [List.forall_mem_cons] at areWords
    have notWord : '_' ∉ word := fun isChar => (wordChar (areWords.1.2 '_' isChar)).notUnderscore rfl
    cases words with
    | nil => exact notWord
    | cons next words =>
      rw [joined_cons, List.mem_append, List.mem_append, not_or, not_or]
      refine ⟨notWord, ?_, inductionHypothesis areWords.2⟩
      split <;> simp

/-! ## Actions -/

/-- Identifiers have no question marks. -/
theorem filter_mark {name : List Char} (characters : ∀ char ∈ name, isIdentifierChar char = true) :
    name.filter (· ≠ '?') = name := by
  rw [List.filter_eq_self]
  intro char isChar
  have noMark := forall_identifierChar (fun char => char ≠ '?') (by decide +kernel) (characters char isChar)
  simpa using noMark

theorem toPascalCase_eq {name : List Char} (characters : ∀ char ∈ name, isIdentifierChar char = true) :
    toPascalCase name = (promptWords name).flatMap capitalize := by
  have oneByOne : lower (replace '_' ' ' (replace '-' ' ' name)) = name.map spaced := by
    rw [lower, replace, replace, List.map_map, List.map_map]
    refine List.map_congr_left fun char isChar => ?_
    exact forall_identifierChar (fun char => (Char.toLower ∘ (fun char => if char = '_' then ' ' else char) ∘
      fun char => if char = '-' then ' ' else char) char = spaced char) (by decide +kernel) (characters char isChar)
  rw [toPascalCase, filter_mark characters, oneByOne, promptWords]

theorem pythonActionToPddl_callName {name : List Char} (characters : ∀ char ∈ name, isIdentifierChar char = true) :
    pythonActionToPddl (callName name) = joined (promptWords name) := by
  have rawName : (callName name).drop actionPrefix.length = (promptWords name).flatMap capitalize := by
    rw [callName, List.drop_left, toPascalCase_eq characters]
  simp only [pythonActionToPddl, rawName]
  exact lower_insertBoundaries (promptWords_bound characters).1

theorem intercalate_cons (separator : Char) (word next : List Char) (rest : List (List Char)) :
    [separator].intercalate (word :: next :: rest) =
      word ++ separator :: [separator].intercalate (next :: rest) := by
  simp [List.intercalate]

theorem map_spaced_intercalate {words : List (List Char)} (areWords : ∀ word ∈ words, IsWord word) :
    (['-'].intercalate words).map spaced = [' '].intercalate words := by
  induction words with
  | nil => rfl
  | cons word words inductionHypothesis =>
    rw [List.forall_mem_cons] at areWords
    have unchanged : word.map spaced = word :=
      (List.map_congr_left fun char isChar => (wordChar (areWords.1.2 char isChar)).spaced).trans (List.map_id word)
    cases words with
    | nil => simpa [List.intercalate] using unchanged
    | cons next words =>
      rw [intercalate_cons, intercalate_cons, List.map_append, List.map_cons, unchanged,
        inductionHypothesis areWords.2]
      rfl

/-- The action names that are recovered. -/
theorem joined_promptWords_iff {name : List Char} (nonempty : name ≠ [])
    (characters : ∀ char ∈ name, isIdentifierChar char = true) :
    joined (promptWords name) = name ↔ DashedName name := by
  obtain ⟨areWords, atMost⟩ := promptWords_bound characters
  constructor
  · intro recovered
    have someWords : promptWords name ≠ [] := by
      intro isEmpty
      rw [isEmpty] at recovered
      exact nonempty recovered.symm
    have noUnderscore : name.count '_' = 0 := by
      rw [List.count_eq_zero, ← recovered]
      exact notMem_joined areWords
    -- Every gap between two words takes a dash of the name.
    obtain ⟨atLeast, separated⟩ := count_joined areWords someWords
    rw [recovered] at atLeast separated
    have isChain := separated (by omega)
    exact ⟨promptWords name, someWords, areWords, isChain, recovered.symm.trans (joined_chain isChain)⟩
  · rintro ⟨words, _, dashedWords, separated, rfl⟩
    rw [promptWords, map_spaced_intercalate dashedWords, splitWords_intercalate dashedWords, joined_chain separated]

theorem promptWords_lower {name : List Char} (characters : ∀ char ∈ name, isIdentifierChar char = true) :
    promptWords (lower name) = promptWords name := by
  rw [promptWords, promptWords, lower, List.map_map]
  exact congrArg splitWords (List.map_congr_left fun char isChar => spaced_toLower (characters char isChar))

/-! ## Objects -/

/-- What a character of an object becomes. -/
def snakeChar (char : Char) : Char := if char = '-' then '_' else char.toLower

theorem toSnakeCase_eq {name : List Char} (characters : ∀ char ∈ name, isIdentifierChar char = true) :
    toSnakeCase name = name.map snakeChar := by
  rw [toSnakeCase, filter_mark characters, lower, replace, List.map_map]
  refine List.map_congr_left fun char isChar => ?_
  exact forall_identifierChar (fun char => (Char.toLower ∘ fun char => if char = '-' then '_' else char) char =
    snakeChar char) (by decide +kernel) (characters char isChar)

theorem map_snakeChar_lower {name : List Char} (characters : ∀ char ∈ name, isIdentifierChar char = true) :
    (lower name).map snakeChar = name.map snakeChar := by
  rw [lower, List.map_map]
  exact List.map_congr_left fun char isChar => forall_identifierChar
    (fun char => (snakeChar ∘ Char.toLower) char = snakeChar char) (by decide +kernel) (characters char isChar)

theorem toSnakeCase_iff {object spelling : Identifier} (sameName : lower spelling.name = lower object.name) :
    toSnakeCase object.name = spelling.name ↔ PlainName spelling.name := by
  have fromSpelling : toSnakeCase object.name = spelling.name.map snakeChar := by
    rw [toSnakeCase_eq object.characters, ← map_snakeChar_lower object.characters, ← sameName,
      map_snakeChar_lower spelling.characters]
  have unchanged : ∀ char ∈ spelling.name, snakeChar char = char ↔ char ≠ '-' ∧ char.isUpper = false :=
    fun char isChar => forall_identifierChar
      (fun char => snakeChar char = char ↔ char ≠ '-' ∧ char.isUpper = false) (by decide +kernel)
      (spelling.characters char isChar)
  rw [fromSpelling, PlainName]
  constructor
  · intro same
    rw [← List.map_id spelling.name, List.map_map, List.map_inj_left] at same
    exact fun char isChar => (unchanged char isChar).mp (same char isChar)
  · intro plain
    exact (List.map_congr_left fun char isChar => (unchanged char isChar).mpr (plain char isChar)).trans
      (List.map_id spelling.name)

namespace PlanningNames

variable {names : PlanningNames}

theorem action_recovered_iff (action : Identifier) :
    pythonActionToPddl (callName action.name) = (names.spelling action).name ↔
      DashedName (names.spelling action).name := by
  have sameWords : promptWords action.name = promptWords (names.spelling action).name := by
    rw [← promptWords_lower action.characters, ← names.sameName, promptWords_lower (names.spelling action).characters]
  rw [pythonActionToPddl_callName action.characters, sameWords]
  exact joined_promptWords_iff (names.spelling action).nonempty (names.spelling action).characters

theorem object_iff {object : Identifier} (isObject : object ∈ names.objects) (name : List Char) :
    names.object name = some object ↔ name = (names.spelling object).name := by
  rw [PlanningNames.object]
  constructor
  · intro found
    have isName := List.find?_some found
    exact (of_decide_eq_true isName).symm
  · rintro rfl
    have found : ∃ other, names.objects.find?
        (fun other => (names.spelling other).name = (names.spelling object).name) = some other := by
      rw [← Option.isSome_iff_exists, List.find?_isSome]
      exact ⟨object, isObject, decide_eq_true rfl⟩
    obtain ⟨other, isFound⟩ := found
    have isName := List.find?_some isFound
    have sameName : (names.spelling other).name = (names.spelling object).name := of_decide_eq_true isName
    -- Two objects are never spelled alike.
    have same := List.inj_on_of_nodup_map names.objectsNodup (List.mem_of_find?_eq_some isFound) isObject
      (Identifier.ext sameName)
    rw [isFound, same]

/-- All names are recovered exactly when the library spells the actions as dashed words and the objects in
small letters without dashes. -/
theorem recovered_iff (names : PlanningNames) :
    names.Recovered ↔ (∀ action ∈ names.actions, DashedName (names.spelling action).name) ∧
      ∀ object ∈ names.objects, PlainName (names.spelling object).name := by
  constructor
  · intro recovered
    constructor
    · exact fun action isAction => (action_recovered_iff action).mp (recovered.actions action isAction)
    · intro object isObject
      have isSpelling := (object_iff isObject _).mp (recovered.objects object isObject)
      exact (toSnakeCase_iff (names.sameName object)).mp isSpelling
  · rintro ⟨actions, objects⟩
    have decodes : ∀ action ∈ names.actions,
        pythonActionToPddl (callName action.name) = (names.spelling action).name :=
      fun action isAction => (action_recovered_iff action).mpr (actions action isAction)
    refine ⟨decodes, ?_, ?_⟩
    · intro first isFirst second isSecond sameCall
      have sameName := congrArg pythonActionToPddl sameCall
      rw [decodes first isFirst, decodes second isSecond] at sameName
      exact List.inj_on_of_nodup_map names.actionsNodup isFirst isSecond (Identifier.ext sameName)
    · intro object isObject
      exact (object_iff isObject _).mpr ((toSnakeCase_iff (names.sameName object)).mpr (objects object isObject))

/-- Actions that only differ in a dash, and an object with a dash. -/
def dashes : PlanningNames where
  actions := [⟨"load-truck".toList, by decide, by decide⟩, ⟨"load_truck".toList, by decide, by decide⟩]
  objects := [⟨"truck-1".toList, by decide, by decide⟩]
  spelling := id
  sameName _ := rfl
  actionsNodup := by decide
  objectsNodup := by decide

/-- Both actions have one call name, and the object is unknown. -/
theorem dashes_not_recovered : ¬ dashes.Recovered := by
  intro recovered
  have recoveredName := recovered.actions ⟨"load_truck".toList, by decide, by decide⟩
    (List.mem_cons_of_mem _ (List.mem_cons_self ..))
  revert recoveredName
  decide +kernel

end PlanningNames

end CutPlan.Controller
