import CutPlan.Sas.Arithmetic
import Mathlib.Algebra.BigOperators.Group.List.Basic
import Mathlib.Data.Int.Log
import Mathlib.Data.Rat.Floor

/-! # Numeric expressions

The expressions of the planning language and the symbols of the functions that are derived from them.
The symbol of a derived function is its printed key.  Printing loses nothing but the digits of a constant
after the twelfth, so a symbol is the key with rounded constants.
-/

namespace CutPlan.Sas.CalOperator

/-- The operator on a list of operands.  A quotient by 0 has no value. -/
def apply (op : CalOperator) (values : List ℚ) : Option ℚ :=
  match op, values with
  | .sum, values => some values.sum
  | .mult, values => some values.prod
  | .diff, [left, right] => some (left - right)
  | .divi, [left, right] => if right = 0 then none else some (left / right)
  | _, _ => none

theorem apply_perm {op : CalOperator} (commutes : op = .sum ∨ op = .mult) {values values' : List ℚ}
    (perm : values.Perm values') : op.apply values = op.apply values' := by
  obtain rfl | rfl := commutes
  · simp [apply, perm.sum_eq]
  · simp [apply, perm.prod_eq]

theorem apply_pair {op : CalOperator} {left right value : ℚ}
    (applies : op.apply [left, right] = some value) : op.eval left right = value := by
  cases op with
  | sum => simpa [apply, eval] using applies
  | mult => simpa [apply, eval] using applies
  | diff => simpa [apply, eval] using applies
  | divi =>
    simp only [apply] at applies
    split at applies
    · cases applies
    · simpa [eval] using applies

end CutPlan.Sas.CalOperator

namespace CutPlan.Translate

open CutPlan.Sas

/-! ## Printed numbers -/

def roundHalfEven (value : ℚ) : ℤ :=
  let rest := value - ⌊value⌋
  if rest < 1 / 2 ∨ rest = 1 / 2 ∧ ⌊value⌋ % 2 = 0 then ⌊value⌋ else ⌊value⌋ + 1

/-- The number that is printed for a value: twelve significant digits. -/
def str (value : ℚ) : ℚ :=
  let scale : ℚ := 10 ^ (11 - Int.log 10 |value|)
  roundHalfEven (value * scale) / scale

/-! ## Expressions -/

inductive FunctionalExpression where
  | numericConstant (value : ℚ)
  | primitive (symbol : String) (args : List String)
  | additiveInverse (part : FunctionalExpression)
  | arithmetic (op : CalOperator) (parts : List FunctionalExpression)
  deriving Repr

namespace FunctionalExpression

/-! The value under an assignment of objects to the variables, where `functions` gives the values of the
functions. -/

mutual
def value (functions : String → List String → Option ℚ) (mapping : String → String) :
    FunctionalExpression → Option ℚ
  | .numericConstant value => some value
  | .primitive symbol args => functions symbol (args.map mapping)
  | .additiveInverse part => (part.value functions mapping).map (-·)
  | .arithmetic op parts => (values functions mapping parts).bind op.apply

def values (functions : String → List String → Option ℚ) (mapping : String → String) :
    List FunctionalExpression → Option (List ℚ)
  | [] => some []
  | part :: parts => do
    let first ← part.value functions mapping
    let rest ← values functions mapping parts
    return first :: rest
end

/-! The operands of sums and products are sorted before they are visited, in an order that depends on
the objects' addresses. -/

mutual
inductive Reordered : FunctionalExpression → FunctionalExpression → Prop where
  | numericConstant (value : ℚ) : Reordered (.numericConstant value) (.numericConstant value)
  | primitive (symbol : String) (args : List String) :
      Reordered (.primitive symbol args) (.primitive symbol args)
  | additiveInverse {part part' : FunctionalExpression} (reordered : Reordered part part') :
      Reordered (.additiveInverse part) (.additiveInverse part')
  | arithmetic {op : CalOperator} {parts visited sorted : List FunctionalExpression}
      (each : ReorderedAll parts visited) (perm : visited.Perm sorted)
      (commutes : visited = sorted ∨ op = .sum ∨ op = .mult) :
      Reordered (.arithmetic op parts) (.arithmetic op sorted)

inductive ReorderedAll : List FunctionalExpression → List FunctionalExpression → Prop where
  | nil : ReorderedAll [] []
  | cons {part part' : FunctionalExpression} {parts parts' : List FunctionalExpression}
      (first : Reordered part part') (rest : ReorderedAll parts parts') :
      ReorderedAll (part :: parts) (part' :: parts')
end

variable {functions : String → List String → Option ℚ} {mapping : String → String}

theorem values_eq_some {parts : List FunctionalExpression} {found : List ℚ} :
    values functions mapping parts = some found ↔
      List.Forall₂ (fun part value => part.value functions mapping = some value) parts found := by
  induction parts generalizing found with
  | nil => cases found <;> simp [values]
  | cons part parts inductionHypothesis =>
    cases found <;> simp [values, Option.bind_eq_some_iff, ← inductionHypothesis]

theorem value_arithmetic {op : CalOperator} {parts : List FunctionalExpression} {result : ℚ} :
    (arithmetic op parts).value functions mapping = some result ↔
      ∃ found, List.Forall₂ (fun part value => part.value functions mapping = some value) parts found ∧
        op.apply found = some result := by
  simp [value, Option.bind_eq_some_iff, values_eq_some]

mutual
theorem Reordered.value_eq {expression visited : FunctionalExpression}
    (reordered : Reordered expression visited) {result : ℚ}
    (hasValue : expression.value functions mapping = some result) :
    visited.value functions mapping = some result := by
  cases reordered with
  | numericConstant value => exact hasValue
  | primitive symbol args => exact hasValue
  | additiveInverse reordered =>
    rw [value, Option.map_eq_some_iff] at hasValue ⊢
    obtain ⟨inner, isInner, negated⟩ := hasValue
    exact ⟨inner, reordered.value_eq isInner, negated⟩
  | arithmetic each perm commutes =>
    obtain ⟨found, areValues, applies⟩ := value_arithmetic.mp hasValue
    have visitedValues := each.values_eq areValues
    apply value_arithmetic.mpr
    obtain rfl | commutes := commutes
    · exact ⟨found, visitedValues, applies⟩
    · -- The values are permuted along with the operands.
      obtain ⟨sortedValues, areSorted, permuted⟩ := List.perm_comp_forall₂ perm.symm visitedValues
      exact ⟨sortedValues, areSorted, by rw [CalOperator.apply_perm commutes permuted, applies]⟩
  termination_by sizeOf expression

theorem ReorderedAll.values_eq {parts visited : List FunctionalExpression}
    (reordered : ReorderedAll parts visited) {found : List ℚ}
    (areValues : List.Forall₂ (fun part value => part.value functions mapping = some value) parts found) :
    List.Forall₂ (fun part value => part.value functions mapping = some value) visited found := by
  cases reordered with
  | nil => exact areValues
  | cons first rest =>
    cases areValues with
    | cons isFirst areRest => exact .cons (first.value_eq isFirst) (rest.values_eq areRest)
  termination_by sizeOf parts
end

end FunctionalExpression

/-! ## Symbols -/

mutual
/-- The symbol of a function of the domain or of a derived function. -/
inductive Symbol where
  | function (name : String)
  | constant (text : ℚ)
  | inverse (part : Symbol)
  | operation (op : CalOperator) (parts : List Pne)
  deriving Repr

inductive Pne where
  | mk (symbol : Symbol) (args : List String)
  deriving Repr
end

namespace Pne

def symbol : Pne → Symbol
  | mk symbol _ => symbol

def args : Pne → List String
  | mk _ args => args

@[simp] theorem symbol_mk (symbol : Symbol) (args : List String) : (mk symbol args).symbol = symbol := rfl

@[simp] theorem args_mk (symbol : Symbol) (args : List String) : (mk symbol args).args = args := rfl

@[simp] theorem mk_symbol_args (pne : Pne) : mk pne.symbol pne.args = pne := by
  cases pne
  rfl

end Pne

mutual
def Symbol.decEq : (first second : Symbol) → Decidable (first = second)
  | .function name, .function name' => decidable_of_iff (name = name') (by simp)
  | .constant text, .constant text' => decidable_of_iff (text = text') (by simp)
  | .inverse part, .inverse part' =>
    have := part.decEq part'
    decidable_of_iff (part = part') (by simp)
  | .operation op parts, .operation op' parts' =>
    have := Pne.decEqList parts parts'
    decidable_of_iff (op = op' ∧ parts = parts') (by simp)
  | .function _, .constant _ | .function _, .inverse _ | .function _, .operation _ _ =>
    isFalse (by simp)
  | .constant _, .function _ | .constant _, .inverse _ | .constant _, .operation _ _ =>
    isFalse (by simp)
  | .inverse _, .function _ | .inverse _, .constant _ | .inverse _, .operation _ _ =>
    isFalse (by simp)
  | .operation _ _, .function _ | .operation _ _, .constant _ | .operation _ _, .inverse _ =>
    isFalse (by simp)

def Pne.decEqList : (first second : List Pne) → Decidable (first = second)
  | [], [] => isTrue rfl
  | [], _ :: _ | _ :: _, [] => isFalse (by simp)
  | .mk symbol args :: rest, .mk symbol' args' :: rest' =>
    have := symbol.decEq symbol'
    have := Pne.decEqList rest rest'
    decidable_of_iff ((symbol = symbol' ∧ args = args') ∧ rest = rest') (by simp)
end

instance : DecidableEq Symbol := Symbol.decEq

instance : DecidableEq Pne
  | .mk symbol args, .mk symbol' args' =>
    decidable_of_iff (symbol = symbol' ∧ args = args') (by simp)

end CutPlan.Translate
