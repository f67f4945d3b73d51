import CutPlan.Controller.NameCodec
import Mathlib.Algebra.Field.Rat

/-! # The goal in the prompt

The prompt lists the conditions that the final state has to meet, by a walk over the goal of the problem.
-/

namespace CutPlan.Controller

/-! ## Goals -/

structure GoalAtom where
  name : Identifier
  terms : List Identifier
  deriving DecidableEq

inductive ComparisonKind where
  | equalTo
  | greaterEqualThan
  | greaterThan
  | lesserEqualThan
  | lesserThan
  deriving DecidableEq

inductive GoalExpression where
  | number (value : ℚ)
  | numericFunction (function : GoalAtom)
  | plus (first second : GoalExpression)
  | minus (first second : GoalExpression)
  | times (first second : GoalExpression)
  | divide (first second : GoalExpression)

/-- The nodes of a parsed goal. -/
inductive Goal where
  | predicate (atom : GoalAtom)
  | not (argument : Goal)
  | and (operands : List Goal)
  | or (operands : List Goal)
  | comparison (kind : ComparisonKind) (left right : GoalExpression)

/-! ## The text -/

structure GoalTxt where
  txtLines : List (List Char)
  goalCounter : ℕ

/-- The predicate under the name that it has in the prompt. -/
def safePred (name : Identifier) : List Char :=
  let rawPredName := toSnakeCase name.name
  if ['i', 's', '_'].isPrefixOf rawPredName then rawPredName else ['i', 's', '_'] ++ rawPredName

def atomText (atom : GoalAtom) : List Char :=
  safePred atom.name ++ '(' :: ([',', ' '].intercalate (atom.terms.map fun term => toSnakeCase term.name) ++ [')'])

def goalLine (goalCounter : ℕ) (atom : GoalAtom) : List Char :=
  Nat.toDigits 10 goalCounter ++ ['.', ' '] ++ atomText atom

mutual

def extractGoalTxt : Goal → GoalTxt → GoalTxt
  | .and operands, txt => extractOperands operands txt
  | .predicate atom, txt =>
    { txtLines := txt.txtLines ++ [goalLine txt.goalCounter atom], goalCounter := txt.goalCounter + 1 }
  | .not _, txt | .or _, txt | .comparison _ _ _, txt => txt

def extractOperands : List Goal → GoalTxt → GoalTxt
  | [], txt => txt
  | child :: operands, txt => extractOperands operands (extractGoalTxt child txt)

end

/-- The lines on the goal in the prompt. -/
def Goal.text (goal : Goal) : List (List Char) := (extractGoalTxt goal ⟨[], 1⟩).txtLines

/-! ## The meaning -/

/-- A state says which atoms are true and what the values of the functions are. -/
structure WorldState where
  holds : GoalAtom → Prop
  value : GoalAtom → ℚ

def GoalExpression.value (world : WorldState) : GoalExpression → ℚ
  | .number value => value
  | .numericFunction function => world.value function
  | .plus first second => first.value world + second.value world
  | .minus first second => first.value world - second.value world
  | .times first second => first.value world * second.value world
  | .divide first second => first.value world / second.value world

def ComparisonKind.Holds : ComparisonKind → ℚ → ℚ → Prop
  | .equalTo, left, right => left = right
  | .greaterEqualThan, left, right => right ≤ left
  | .greaterThan, left, right => right < left
  | .lesserEqualThan, left, right => left ≤ right
  | .lesserThan, left, right => left < right

mutual

def Goal.Holds (world : WorldState) : Goal → Prop
  | .predicate atom => world.holds atom
  | .not argument => ¬argument.Holds world
  | .and operands => allHold world operands
  | .or operands => someHolds world operands
  | .comparison kind left right => kind.Holds (left.value world) (right.value world)

def allHold (world : WorldState) : List Goal → Prop
  | [] => True
  | goal :: goals => goal.Holds world ∧ allHold world goals

def someHolds (world : WorldState) : List Goal → Prop
  | [] => False
  | goal :: goals => goal.Holds world ∨ someHolds world goals

end

namespace Goal

def Equivalent (first second : Goal) : Prop := ∀ world, first.Holds world ↔ second.Holds world

mutual

/-- The conditions that the goal asks for together. -/
def conjuncts : Goal → List Goal
  | .and operands => conjunctsOf operands
  | .predicate atom => [.predicate atom]
  | .not argument => [.not argument]
  | .or operands => [.or operands]
  | .comparison kind left right => [.comparison kind left right]

def conjunctsOf : List Goal → List Goal
  | [] => []
  | goal :: goals => conjuncts goal ++ conjunctsOf goals

end

/-- A line on a conjunct: for an atom its name and terms, and for anything else a line of its own, whatever it says. -/
def MentionedBy (line : List Char) : Goal → Prop
  | .predicate atom => ∃ number, line = Nat.toDigits 10 number ++ ['.', ' '] ++ atomText atom
  | .not _ | .and _ | .or _ | .comparison _ _ _ => True

/-- Every conjunct has its line. -/
def Complete (goal : Goal) : Prop := goal.text.Forall₂ MentionedBy goal.conjuncts

def atom? : Goal → Option GoalAtom
  | .predicate atom => some atom
  | .not _ | .and _ | .or _ | .comparison _ _ _ => none

def atoms (goal : Goal) : List GoalAtom := goal.conjuncts.filterMap atom?

/-- A nested conjunction of atoms. -/
def AtomsOnly (goal : Goal) : Prop := ∀ conjunct ∈ goal.conjuncts, conjunct.atom?.isSome

/-- Atoms whose names the prompt does not distinguish. -/
def Alike (first second : GoalAtom) : Prop :=
  safePred first.name = safePred second.name ∧
    first.terms.map (fun term => toSnakeCase term.name) = second.terms.map fun term => toSnakeCase term.name

/-! ## The walk -/

def numbered : ℕ → List GoalAtom → List (List Char)
  | _, [] => []
  | goalCounter, atom :: atoms => goalLine goalCounter atom :: numbered (goalCounter + 1) atoms

theorem numbered_append (goalCounter : ℕ) (first second : List GoalAtom) :
    numbered goalCounter (first ++ second) = numbered goalCounter first ++ numbered (goalCounter + first.length) second := by
  induction first generalizing goalCounter with
  | nil => rfl
  | cons atom first inductionHypothesis =>
    simp only [List.cons_append, numbered, inductionHypothesis, List.length_cons]
    rw [Nat.add_assoc, Nat.add_comm 1]

@[simp] theorem length_numbered (goalCounter : ℕ) (atoms : List GoalAtom) :
    (numbered goalCounter atoms).length = atoms.length := by
  induction atoms generalizing goalCounter with
  | nil => rfl
  | cons atom atoms inductionHypothesis => simp [numbered, inductionHypothesis]

mutual

/-- The walk numbers the atoms among the conjuncts and passes over everything else. -/
theorem extractGoalTxt_eq : ∀ (goal : Goal) (txt : GoalTxt),
    extractGoalTxt goal txt =
      ⟨txt.txtLines ++ numbered txt.goalCounter (goal.conjuncts.filterMap atom?),
        txt.goalCounter + (goal.conjuncts.filterMap atom?).length⟩
  | .and operands, txt => extractOperands_eq operands txt
  | .predicate atom, txt => by simp [extractGoalTxt, conjuncts, atom?, numbered]
  | .not argument, txt => by simp [extractGoalTxt, conjuncts, List.filterMap_cons, atom?, numbered]
  | .or operands, txt => by simp [extractGoalTxt, conjuncts, List.filterMap_cons, atom?, numbered]
  | .comparison kind left right, txt => by simp [extractGoalTxt, conjuncts, List.filterMap_cons, atom?, numbered]

theorem extractOperands_eq : ∀ (goals : List Goal) (txt : GoalTxt),
    extractOperands goals txt =
      ⟨txt.txtLines ++ numbered txt.goalCounter ((conjunctsOf goals).filterMap atom?),
        txt.goalCounter + ((conjunctsOf goals).filterMap atom?).length⟩
  | [], txt => by simp [extractOperands, conjunctsOf, numbered]
  | goal :: goals, txt => by
    rw [extractOperands, extractGoalTxt_eq goal txt, extractOperands_eq goals, conjunctsOf]
    simp [numbered_append, Nat.add_assoc]

end

theorem text_eq (goal : Goal) : goal.text = numbered 1 goal.atoms := by simp [text, extractGoalTxt_eq, atoms]

mutual

theorem holds_iff_conjuncts (world : WorldState) : ∀ goal : Goal,
    goal.Holds world ↔ ∀ conjunct ∈ goal.conjuncts, conjunct.Holds world
  | .and operands => allHold_iff_conjuncts world operands
  | .predicate atom => by simp [conjuncts]
  | .not argument => by simp [conjuncts]
  | .or operands => by simp [conjuncts]
  | .comparison kind left right => by simp [conjuncts]

theorem allHold_iff_conjuncts (world : WorldState) : ∀ goals : List Goal,
    allHold world goals ↔ ∀ conjunct ∈ conjunctsOf goals, conjunct.Holds world
  | [] => by simp [allHold, conjunctsOf]
  | goal :: goals => by
    rw [allHold, holds_iff_conjuncts world goal, allHold_iff_conjuncts world goals, conjunctsOf]
    simp [or_imp, forall_and]

end

/-! ## Names -/

theorem mem_toSnakeCase (identifier : Identifier) : ∀ char ∈ toSnakeCase identifier.name, isIdentifierChar char = true := by
  intro char isChar
  simp only [toSnakeCase, lower, replace, List.map_map, List.mem_map, List.mem_filter] at isChar
  obtain ⟨original, ⟨isOriginal, _⟩, rfl⟩ := isChar
  have isIdentifier := identifier.characters original isOriginal
  exact forall_identifierChar
    (fun char => isIdentifierChar ((Char.toLower ∘ fun char => if char = '-' then '_' else char) char) = true)
    (by decide +kernel) isIdentifier

theorem toSnakeCase_ne_nil (identifier : Identifier) : toSnakeCase identifier.name ≠ [] := by
  obtain ⟨name, nonempty, characters⟩ := identifier
  cases name with
  | nil => exact absurd rfl nonempty
  | cons first rest =>
    have notMark : first ≠ '?' := by
      rintro rfl
      exact absurd (characters '?' (.head _)) (by decide)
    simp [toSnakeCase, lower, replace, notMark]

theorem mem_safePred (name : Identifier) : ∀ char ∈ safePred name, isIdentifierChar char = true := by
  intro char isChar
  rw [safePred] at isChar
  split at isChar
  · exact mem_toSnakeCase name char isChar
  · rw [List.mem_append] at isChar
    cases isChar with
    | inl isPrefix =>
      simp only [List.mem_cons, List.not_mem_nil, or_false] at isPrefix
      obtain rfl | rfl | rfl := isPrefix <;> decide
    | inr isName => exact mem_toSnakeCase name char isName

/-- The words after the first one, each after a comma. -/
def furtherWords (words : List (List Char)) : List Char := words.flatMap fun word => ',' :: ' ' :: word

theorem intercalate_cons (word : List Char) (words : List (List Char)) :
    [',', ' '].intercalate (word :: words) = word ++ furtherWords words := by
  induction words generalizing word with
  | nil => simp [List.intercalate, furtherWords]
  | cons next words inductionHypothesis =>
    have rest := inductionHypothesis next
    simp only [List.intercalate, furtherWords, List.flatMap_cons] at rest ⊢
    simp [List.intersperse, rest]

/-- A text is split where a character is that its first part does not have. -/
theorem append_inj_of_notMem {separator : Char} {word word' rest rest' : List Char} (absent : separator ∉ word)
    (absent' : separator ∉ word') (stops : rest.takeWhile (· ≠ separator) = [])
    (stops' : rest'.takeWhile (· ≠ separator) = []) (same : word ++ rest = word' ++ rest') : word = word' ∧ rest = rest' := by
  have isWord : ∀ {text further : List Char}, separator ∉ text → further.takeWhile (· ≠ separator) = [] →
      (text ++ further).takeWhile (· ≠ separator) = text := by
    intro text further notMem isStop
    rw [List.takeWhile_append_of_pos, isStop, List.append_nil]
    intro char isChar
    exact decide_eq_true fun isSeparator => notMem (isSeparator ▸ isChar)
  have sameWord := congrArg (List.takeWhile (· ≠ separator)) same
  rw [isWord absent stops, isWord absent' stops'] at sameWord
  subst sameWord
  exact ⟨rfl, List.append_cancel_left same⟩

theorem takeWhile_furtherWords (words : List (List Char)) : (furtherWords words).takeWhile (· ≠ ',') = [] := by
  cases words with
  | nil => rfl
  | cons next words => simp [furtherWords]

theorem words_inj {word word' : List Char} {words words' : List (List Char)} (noComma : ',' ∉ word)
    (noComma' : ',' ∉ word') (same : word ++ furtherWords words = word' ++ furtherWords words') :
    word = word' ∧ furtherWords words = furtherWords words' :=
  append_inj_of_notMem noComma noComma' (takeWhile_furtherWords words) (takeWhile_furtherWords words') same

theorem furtherWords_inj {first second : List (List Char)} (firstWords : ∀ word ∈ first, ',' ∉ word)
    (secondWords : ∀ word ∈ second, ',' ∉ word) (same : furtherWords first = furtherWords second) : first = second := by
  induction first generalizing second with
  | nil => cases second with
    | nil => rfl
    | cons word second => simp [furtherWords] at same
  | cons word first inductionHypothesis => cases second with
    | nil => simp [furtherWords] at same
    | cons word' second =>
      simp only [furtherWords, List.flatMap_cons, List.cons_append, List.cons.injEq, true_and] at same
      obtain ⟨sameWord, sameRest⟩ := words_inj (firstWords word (.head _)) (secondWords word' (.head _)) same
      have rest := inductionHypothesis (fun other isOther => firstWords other (.tail _ isOther))
        (fun other isOther => secondWords other (.tail _ isOther)) sameRest
      rw [sameWord, rest]

theorem intercalate_inj {first second : List (List Char)}
    (firstWords : ∀ word ∈ first, word ≠ [] ∧ ',' ∉ word) (secondWords : ∀ word ∈ second, word ≠ [] ∧ ',' ∉ word)
    (same : [',', ' '].intercalate first = [',', ' '].intercalate second) : first = second := by
  cases first with
  | nil => cases second with
    | nil => rfl
    | cons word second =>
      rw [intercalate_cons] at same
      exact absurd (List.append_eq_nil_iff.mp same.symm).1 (secondWords word (.head _)).1
  | cons word first => cases second with
    | nil =>
      rw [intercalate_cons] at same
      exact absurd (List.append_eq_nil_iff.mp same).1 (firstWords word (.head _)).1
    | cons word' second =>
      rw [intercalate_cons, intercalate_cons] at same
      obtain ⟨sameWord, sameRest⟩ := words_inj (firstWords word (.head _)).2 (secondWords word' (.head _)).2 same
      have rest := furtherWords_inj (fun other isOther => (firstWords other (.tail _ isOther)).2)
        (fun other isOther => (secondWords other (.tail _ isOther)).2) sameRest
      rw [sameWord, rest]

theorem not_mem_of_identifierChars {text : List Char} (identifierChars : ∀ char ∈ text, isIdentifierChar char = true)
    {char : Char} (isOther : isIdentifierChar char = false) : char ∉ text := by
  intro isChar
  rw [identifierChars char isChar] at isOther
  cases isOther

theorem termWords (atom : GoalAtom) :
    ∀ word ∈ atom.terms.map fun term => toSnakeCase term.name, word ≠ [] ∧ ',' ∉ word := by
  intro word isWord
  obtain ⟨term, _, rfl⟩ := List.mem_map.mp isWord
  exact ⟨toSnakeCase_ne_nil term, not_mem_of_identifierChars (mem_toSnakeCase term) (by decide)⟩

/-- The text of an atom only leaves out what the names lose. -/
theorem atomText_eq_iff (first second : GoalAtom) : atomText first = atomText second ↔ Alike first second := by
  constructor
  · intro same
    have firstBracket : '(' ∉ safePred first.name := not_mem_of_identifierChars (mem_safePred _) (by decide)
    have secondBracket : '(' ∉ safePred second.name := not_mem_of_identifierChars (mem_safePred _) (by decide)
    obtain ⟨sameName, sameTerms⟩ := append_inj_of_notMem firstBracket secondBracket (by simp) (by simp) same
    rw [List.cons.injEq] at sameTerms
    exact ⟨sameName, intercalate_inj (termWords first) (termWords second) (List.append_cancel_right sameTerms.2)⟩
  · rintro ⟨sameName, sameTerms⟩
    rw [atomText, atomText, sameName, sameTerms]

theorem numbered_eq_iff (goalCounter : ℕ) (first second : List GoalAtom) :
    numbered goalCounter first = numbered goalCounter second ↔ first.Forall₂ Alike second := by
  induction first generalizing goalCounter second with
  | nil => cases second <;> simp [numbered]
  | cons atom first inductionHypothesis => cases second with
    | nil => simp [numbered]
    | cons atom' second =>
      rw [numbered, numbered, List.cons.injEq, inductionHypothesis, List.forall₂_cons, goalLine, goalLine,
        List.append_cancel_left_eq, atomText_eq_iff]

/-! ## Completeness -/

theorem length_atoms_le (goal : Goal) : goal.atoms.length ≤ goal.conjuncts.length := List.length_filterMap_le _ _

theorem predicate_of_atom? {goal : Goal} {atom : GoalAtom} (isAtom : goal.atom? = some atom) : goal = .predicate atom := by
  cases goal with
  | predicate other => exact congrArg Goal.predicate (Option.some.inj isAtom)
  | not | and | or | comparison => cases isAtom

theorem conjuncts_of_atomsOnly {goal : Goal} (atomsOnly : goal.AtomsOnly) :
    goal.conjuncts = goal.atoms.map Goal.predicate := by
  rw [atoms]
  rw [AtomsOnly] at atomsOnly
  generalize goal.conjuncts = conjuncts at atomsOnly ⊢
  induction conjuncts with
  | nil => rfl
  | cons conjunct conjuncts inductionHypothesis =>
    obtain ⟨atom, isAtom⟩ := Option.isSome_iff_exists.mp (atomsOnly conjunct (.head _))
    have rest := inductionHypothesis fun other isOther => atomsOnly other (.tail _ isOther)
    rw [List.filterMap_cons_some isAtom, List.map_cons, ← rest, ← predicate_of_atom? isAtom]

theorem forall₂_numbered (goalCounter : ℕ) (atoms : List GoalAtom) :
    (numbered goalCounter atoms).Forall₂ MentionedBy (atoms.map Goal.predicate) := by
  induction atoms generalizing goalCounter with
  | nil => exact .nil
  | cons atom atoms inductionHypothesis => exact .cons ⟨goalCounter, rfl⟩ (inductionHypothesis _)

/-- Only conjunctions of atoms have a line for every conjunct. -/
theorem complete_iff (goal : Goal) : goal.Complete ↔ goal.AtomsOnly := by
  rw [Complete, text_eq]
  constructor
  · intro complete
    have sameLength := complete.length_eq
    rw [length_numbered] at sameLength
    exact List.filterMap_length_eq_length.mp sameLength
  · intro atomsOnly
    rw [conjuncts_of_atomsOnly atomsOnly]
    exact forall₂_numbered 1 goal.atoms

theorem holds_iff_atoms {goal : Goal} (atomsOnly : goal.AtomsOnly) (world : WorldState) :
    goal.Holds world ↔ ∀ atom ∈ goal.atoms, world.holds atom := by
  rw [holds_iff_conjuncts, conjuncts_of_atomsOnly atomsOnly, List.forall_mem_map]
  rfl

/-- Conjunctions of atoms are equivalent if they have the same atoms. -/
theorem equivalent_iff {first second : Goal} (firstOnly : first.AtomsOnly) (secondOnly : second.AtomsOnly) :
    first.Equivalent second ↔ ∀ atom, atom ∈ first.atoms ↔ atom ∈ second.atoms := by
  constructor
  · intro equivalent atom
    have onFirst := equivalent ⟨(· ∈ first.atoms), 0⟩
    have onSecond := equivalent ⟨(· ∈ second.atoms), 0⟩
    rw [holds_iff_atoms firstOnly, holds_iff_atoms secondOnly] at onFirst onSecond
    exact ⟨fun isFirst => onSecond.mpr (fun _ isAtom => isAtom) atom isFirst,
      fun isSecond => onFirst.mp (fun _ isAtom => isAtom) atom isSecond⟩
  · intro same world
    rw [holds_iff_atoms firstOnly, holds_iff_atoms secondOnly]
    exact forall_congr' fun atom => by rw [same atom]

/-- The texts are complete and do not confuse two goals. -/
def TellApart (first second : Goal) : Prop :=
  first.Complete ∧ second.Complete ∧ (first.text = second.text → first.Equivalent second)

theorem tellApart_iff (first second : Goal) :
    TellApart first second ↔
      first.AtomsOnly ∧ second.AtomsOnly ∧
        (first.atoms.Forall₂ Alike second.atoms → ∀ atom, atom ∈ first.atoms ↔ atom ∈ second.atoms) := by
  rw [TellApart, complete_iff, complete_iff, text_eq, text_eq, numbered_eq_iff]
  refine and_congr_right fun firstOnly => and_congr_right fun secondOnly => ?_
  rw [equivalent_iff firstOnly secondOnly]

/-- A goal that also asks for a door not to be open has the text of the goal without that. -/
theorem text_of_negatedConjunct :
    ∃ first second : Goal, first.text = second.text ∧ ¬second.Complete ∧ ¬first.Equivalent second := by
  let delivered : GoalAtom := ⟨⟨['d', 'e', 'l', 'i', 'v', 'e', 'r', 'e', 'd'], by decide, by simp [isIdentifierChar]⟩, []⟩
  let opened : GoalAtom := ⟨⟨['o', 'p', 'e', 'n', 'e', 'd'], by decide, by simp [isIdentifierChar]⟩, []⟩
  refine ⟨.predicate delivered, .and [.predicate delivered, .not (.predicate opened)], ?_, ?_, ?_⟩
  · rw [text_eq, text_eq]
    rfl
  · rw [complete_iff]
    intro atomsOnly
    have isAtom := atomsOnly (.not (.predicate opened)) (by simp [conjuncts, conjunctsOf])
    cases isAtom
  · intro equivalent
    have everywhere := equivalent ⟨fun _ => True, 0⟩
    simp [Goal.Holds, allHold] at everywhere

end Goal

end CutPlan.Controller
