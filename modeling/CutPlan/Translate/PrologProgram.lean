import CutPlan.Translate.RuleSplitting

/-! # The grounding program

Facts and rules of the grounding program, and its normal form: effects have no free variables, no atom has
a variable twice, and no rule is without conditions.  Free variables of effects get conditions over all objects,
later occurrences of a variable are renamed and equated with the first one, and rules without conditions
become facts.
-/

namespace CutPlan.Translate

open CutPlan.Lib

/-- The names that the normal form and the splitting of the rules may use. -/
structure ReservedNames (Pred Var : Type) where
  newName : ℕ → Pred
  objectPredicate : Pred
  equality : Pred
  renamed : Var → ℕ → Var
  newName_injective : Function.Injective newName
  renamed_injective : ∀ {first second : Var} {number number' : ℕ},
    renamed first number = renamed second number' → first = second ∧ number = number'
  object_ne_equality : objectPredicate ≠ equality
  newName_ne_object : ∀ number, objectPredicate ≠ newName number
  newName_ne_equality : ∀ number, equality ≠ newName number

/-! ## The names in use -/

theorem renamedVariable_injective {first second : String} {number number' : ℕ}
    (same : first ++ "@" ++ toString number = second ++ "@" ++ toString number') : first = second ∧ number = number' := by
  have sameChars : first.toList ++ '@' :: Nat.toDigits 10 number = second.toList ++ '@' :: Nat.toDigits 10 number' := by
    have := congrArg String.toList same
    simpa [Nat.toList_repr] using this
  have isDigits : ∀ n : ℕ, ∀ char ∈ (Nat.toDigits 10 n).reverse, (char != '@') = true := by
    intro n char member
    have isDigit := Nat.isDigit_of_mem_toDigits (by omega) (by omega) (List.mem_reverse.mp member)
    rw [bne_iff_ne]
    rintro rfl
    exact absurd isDigit (by decide)
  have reversed := congrArg List.reverse sameChars
  simp only [List.reverse_append, List.reverse_cons, List.append_assoc, List.singleton_append] at reversed
  have digits := congrArg (List.takeWhile (· != '@')) reversed
  rw [List.takeWhile_append_of_pos (isDigits number), List.takeWhile_append_of_pos (isDigits number')] at digits
  simp only [List.takeWhile_cons, bne_self_eq_false, Bool.false_eq_true, if_false, List.append_nil] at digits
  rw [digits] at reversed
  have rest := List.append_cancel_left reversed
  refine ⟨?_, ?_⟩
  · exact String.toList_inj.mp (List.reverse_injective (List.cons.inj rest).2)
  · rw [← Nat.ofDigitChars_ten_toDigits (n := number), List.reverse_injective digits, Nat.ofDigitChars_ten_toDigits]

theorem pseudoPredicate_injective : Function.Injective fun number : ℕ => "p$" ++ toString number := by
  intro first second same
  have digits : Nat.toDigits 10 first = Nat.toDigits 10 second := by
    have sameChars := congrArg String.toList same
    simpa [Nat.toList_repr] using sameChars
  rw [← Nat.ofDigitChars_ten_toDigits (n := first), digits, Nat.ofDigitChars_ten_toDigits]

/-- The names of a task have no dollar sign. -/
theorem ne_pseudoPredicate {name : String} (noDollar : '$' ∉ name.toList) (number : ℕ) :
    name ≠ "p$" ++ toString number := by
  rintro rfl
  simp at noDollar

theorem ne_renamedVariable {name : String} (noAt : '@' ∉ name.toList) (original : String) (number : ℕ) :
    name ≠ original ++ "@" ++ toString number := by
  rintro rfl
  simp at noAt

theorem objectPredicate_ne_pseudoPredicate (number : ℕ) : "@object" ≠ "p$" ++ toString number :=
  ne_pseudoPredicate (by decide) number

theorem equality_ne_pseudoPredicate (number : ℕ) : "=" ≠ "p$" ++ toString number :=
  ne_pseudoPredicate (by decide) number

theorem objectPredicate_ne_equality : "@object" ≠ "=" := by decide

def prologNames : ReservedNames String String where
  newName number := "p$" ++ toString number
  objectPredicate := "@object"
  equality := "="
  renamed name number := name ++ "@" ++ toString number
  newName_injective := pseudoPredicate_injective
  renamed_injective := renamedVariable_injective
  object_ne_equality := objectPredicate_ne_equality
  newName_ne_object := objectPredicate_ne_pseudoPredicate
  newName_ne_equality := equality_ne_pseudoPredicate

variable {Pred Var Obj : Type}

structure PrologProgram (Pred Var Obj : Type) where
  facts : List (Atom Pred Obj)
  rules : List (DatalogRule Pred Var Obj)
  objects : List Obj

namespace PrologProgram

section Facts

variable [DecidableEq Obj]

def addFact (program : PrologProgram Pred Var Obj) (atom : Atom Pred Obj) :
    PrologProgram Pred Var Obj :=
  { program with
    facts := program.facts ++ [atom]
    objects := program.objects ∪ atom.args }

/-- The facts are added one by one before the rules. -/
def ofFacts (facts : List (Atom Pred Obj)) (rules : List (DatalogRule Pred Var Obj)) :
    PrologProgram Pred Var Obj :=
  { facts.foldl addFact (⟨[], [], []⟩ : PrologProgram Pred Var Obj) with rules := rules }

end Facts

variable (names : ReservedNames Pred Var)

section FreeVariables

variable [DecidableEq Var] (le : Term Var Obj → Term Var Obj → Bool)

def freeVariables (rule : DatalogRule Pred Var Obj) : List Var :=
  let condVars := rule.conditions.flatMap variablesOf
  (variablesOf rule.effect).dedup.filter (· ∉ condVars)

def addObjectConditions (rule : DatalogRule Pred Var Obj) : DatalogRule Pred Var Obj :=
  let effVars := ((freeVariables rule).map (Term.var : Var → Term Var Obj)).mergeSort le
  { rule with conditions := rule.conditions ++ effVars.map fun var => ⟨names.objectPredicate, [var]⟩ }

def removeFreeEffectVariables (program : PrologProgram Pred Var Obj) :
    PrologProgram Pred Var Obj :=
  let mustAddPredicate := program.rules.any fun rule => !(freeVariables rule).isEmpty
  { program with
    rules := program.rules.map (addObjectConditions names le)
    facts := if mustAddPredicate then program.facts ++ program.objects.map fun obj => ⟨names.objectPredicate, [obj]⟩
      else program.facts }

end FreeVariables

section DuplicateArguments

variable [DecidableEq Var]

def equalityCondition (var newVar : Var) : SymbolicAtom Pred Var Obj :=
  ⟨names.equality, [.var var, .var newVar]⟩

/-- Renames the variables that have been used before, and returns the arguments and the new conditions. -/
def renameArgs : List Var → List (Term Var Obj) → List (SymbolicAtom Pred Var Obj) →
    List (Term Var Obj) × List (SymbolicAtom Pred Var Obj)
  | _, [], newConditions => ([], newConditions)
  | used, .object known :: args, newConditions =>
    let (args, newConditions) := renameArgs used args newConditions
    (.object known :: args, newConditions)
  | used, .var name :: args, newConditions =>
    if name ∈ used then
      let newVar := names.renamed name newConditions.length
      let (args, newConditions) := renameArgs used args (newConditions ++ [equalityCondition names name newVar])
      (.var newVar :: args, newConditions)
    else
      let (args, newConditions) := renameArgs (name :: used) args newConditions
      (.var name :: args, newConditions)

def renameAtom (atom : SymbolicAtom Pred Var Obj)
    (newConditions : List (SymbolicAtom Pred Var Obj)) :
    SymbolicAtom Pred Var Obj × List (SymbolicAtom Pred Var Obj) :=
  let (args, newConditions) := renameArgs names [] atom.args newConditions
  (⟨atom.predicate, args⟩, newConditions)

def renameConditions : List (SymbolicAtom Pred Var Obj) → List (SymbolicAtom Pred Var Obj) →
    List (SymbolicAtom Pred Var Obj) × List (SymbolicAtom Pred Var Obj)
  | [], extraConditions => ([], extraConditions)
  | condition :: conditions, extraConditions =>
    let (condition, extraConditions) := renameAtom names condition extraConditions
    let (conditions, extraConditions) := renameConditions conditions extraConditions
    (condition :: conditions, extraConditions)

def renameDuplicateVariables (rule : DatalogRule Pred Var Obj) : DatalogRule Pred Var Obj :=
  let (effect, extraConditions) := renameAtom names rule.effect []
  let (conditions, extraConditions) := renameConditions names rule.conditions extraConditions
  ⟨conditions ++ extraConditions, effect⟩

def splitDuplicateArguments (program : PrologProgram Pred Var Obj) :
    PrologProgram Pred Var Obj :=
  { program with rules := program.rules.map (renameDuplicateVariables names) }

end DuplicateArguments

section TrivialRules

def object? : Term Var Obj → Option Obj
  | .var _ => none
  | .object known => some known

/-- Only an atom without variables is a fact. -/
def groundAtom? (atom : SymbolicAtom Pred Var Obj) : Option (Atom Pred Obj) := do
  let args ← atom.args.mapM object?
  return ⟨atom.predicate, args⟩

variable [DecidableEq Obj]

def addTrivialRule (program : PrologProgram Pred Var Obj) (rule : DatalogRule Pred Var Obj) :
    Option (PrologProgram Pred Var Obj) :=
  if rule.conditions = [] then do
    let atom ← groundAtom? rule.effect
    return program.addFact atom
  else some { program with rules := program.rules ++ [rule] }

/-- Nothing is returned when an assertion fails. -/
def convertTrivialRules (program : PrologProgram Pred Var Obj) :
    Option (PrologProgram Pred Var Obj) :=
  program.rules.foldlM addTrivialRule { program with rules := [] }

end TrivialRules

def normalize [DecidableEq Var] [DecidableEq Obj] (le : Term Var Obj → Term Var Obj → Bool)
    (program : PrologProgram Pred Var Obj) : Option (PrologProgram Pred Var Obj) :=
  ((program.removeFreeEffectVariables names le).splitDuplicateArguments names).convertTrivialRules

end PrologProgram

end CutPlan.Translate
