import CutPlan.Search.Task

/-! # Resolving action names

The part of `ActionChainEvaluator` that maps the action names of a response to operators.
-/

namespace CutPlan.Search

/-! ## Operator names -/

def isSpace (character : Char) : Bool :=
  character = ' ' || character = '\t' || character = '\n' || character = '\r' ||
    character = '\x0b' || character = '\x0c'

def trimSpaces (characters : List Char) : List Char :=
  ((characters.dropWhile isSpace).reverse.dropWhile isSpace).reverse

/-- Removes one pair of enclosing parentheses. -/
def stripParentheses (characters : List Char) : List Char :=
  if characters.length > 1 ∧ characters.head? = some '(' ∧ characters.getLast? = some ')' then
    (characters.drop 1).dropLast
  else characters

/-- The loop over the remaining characters: runs of white space become one blank between words. -/
def collapseSpaces : List Char → List Char → Bool → List Char
  | [], normalized, _ => normalized
  | character :: rest, normalized, pendingSpace =>
    if isSpace character then collapseSpaces rest normalized (!normalized.isEmpty)
    else
      collapseSpaces rest
        ((if pendingSpace then normalized ++ [' '] else normalized) ++ [character.toLower]) false

def normalizeOperatorName (rawName : String) : String :=
  String.ofList (collapseSpaces (stripParentheses (trimSpaces rawName.toList)) [] false)

example : normalizeOperatorName " ( Drive-Truck  t1\tA ) " = "drive-truck t1 a" := by decide

/-! ## Resolution -/

inductive ActionResolution (O : Type) where
  | unknownAction
  | inapplicableAction (op : O)
  | found (op : O)

namespace Task

variable {S O : Type} (task : Task S O)

/-- `operator_by_name`: a later operator of the same name replaces an earlier one. -/
def operatorByName (requestedName : String) : Option O :=
  (task.operators.filter fun op =>
    normalizeOperatorName (task.name op) = requestedName).getLast?

def resolveAction (state : S) (rawAction : String) : ActionResolution O :=
  match task.operatorByName (normalizeOperatorName rawAction) with
  | none => .unknownAction
  | some op => if task.isApplicable op state then .found op else .inapplicableAction op

theorem resolveAction_found {task : Task S O} {state : S} {rawAction : String} {op : O}
    (found : task.resolveAction state rawAction = .found op) :
    op ∈ task.operators ∧ task.isApplicable op state = true := by
  unfold resolveAction at found
  split at found
  next => cases found
  next candidate named =>
    split at found
    next applicable =>
      cases found
      have member := List.mem_of_getLast? named
      exact ⟨List.mem_of_mem_filter member, applicable⟩
    next => cases found

end Task

end CutPlan.Search
