import CutPlan.Translate.DerivedFunctions

/-! # Values of derived functions

What the symbol of a derived function says about its value.  An instance of a derived function has
instances of the functions of its operands as operands.
-/

namespace CutPlan.Translate

open CutPlan.Sas

theorem forall₂_imp_of_mem {α β : Type} {relation relation' : α → β → Prop} {items : List α}
    {results : List β} (each : ∀ item ∈ items, ∀ result, relation item result → relation' item result)
    (related : List.Forall₂ relation items results) : List.Forall₂ relation' items results := by
  induction related with
  | nil => exact .nil
  | cons first rest inductionHypothesis =>
    rw [List.forall_mem_cons] at each
    exact .cons (each.1 _ first) (inductionHypothesis each.2)

/-! The value of a function on given arguments. -/

mutual
def Symbol.eval (functions : String → List String → Option ℚ) : Symbol → List String → Option ℚ
  | .function name, args => functions name args
  | .constant text, _ => some text
  | .inverse part, args => (part.eval functions args).map (-·)
  | .operation op parts, args => (Pne.evalParts functions parts args).bind op.apply

def Pne.evalParts (functions : String → List String → Option ℚ) :
    List Pne → List String → Option (List ℚ)
  | [], _ => some []
  | .mk symbol own :: parts, args => do
    let first ← symbol.eval functions (args.take own.length)
    let rest ← Pne.evalParts functions parts (args.drop own.length)
    return first :: rest
end

/-! Whether all functions that the value depends on satisfy a test. -/

mutual
def Symbol.all (test : String → List String → Bool) : Symbol → List String → Bool
  | .function name, args => test name args
  | .constant _, _ => true
  | .inverse part, args => part.all test args
  | .operation _ parts, args => Pne.allParts test parts args

def Pne.allParts (test : String → List String → Bool) : List Pne → List String → Bool
  | [], _ => true
  | .mk symbol own :: parts, args =>
    symbol.all test (args.take own.length) && Pne.allParts test parts (args.drop own.length)
end

mutual
def Symbol.depth : Symbol → ℕ
  | .function _ | .constant _ => 0
  | .inverse part => part.depth + 1
  | .operation _ parts => Pne.depthParts parts + 1

def Pne.depthParts : List Pne → ℕ
  | [] => 0
  | .mk symbol _ :: parts => max symbol.depth (Pne.depthParts parts)
end

namespace Pne

variable {functions functions' : String → List String → Option ℚ} {test : String → List String → Bool}

def eval (functions : String → List String → Option ℚ) (pne : Pne) : Option ℚ :=
  pne.symbol.eval functions pne.args

def all (test : String → List String → Bool) (pne : Pne) : Bool :=
  pne.symbol.all test pne.args

def depth (pne : Pne) : ℕ :=
  pne.symbol.depth

def operands (pne : Pne) : List Pne :=
  match pne.symbol with
  | .function _ | .constant _ => []
  | .inverse part => [.mk part pne.args]
  | .operation _ parts => regroup parts pne.args

def ground (mapping : String → String) (pne : Pne) : Pne :=
  .mk pne.symbol (pne.args.map mapping)

@[simp] theorem symbol_ground (mapping : String → String) (pne : Pne) :
    (pne.ground mapping).symbol = pne.symbol := rfl

@[simp] theorem args_ground (mapping : String → String) (pne : Pne) :
    (pne.ground mapping).args = pne.args.map mapping := rfl

/-! ## Groups of arguments -/

@[simp] theorem regroup_length (parts : List Pne) (args : List String) :
    (regroup parts args).length = parts.length := by
  induction parts generalizing args with
  | nil => rfl
  | cons part parts inductionHypothesis => simp [regroup, inductionHypothesis]

theorem regroup_ground (mapping : String → String) (parts : List Pne) :
    regroup parts ((parts.flatMap Pne.args).map mapping) = parts.map (ground mapping) := by
  induction parts with
  | nil => rfl
  | cons part parts inductionHypothesis =>
    simp only [regroup, List.flatMap_cons, List.map_append, List.map_cons]
    rw [List.take_left' (by simp), List.drop_left' (by simp), inductionHypothesis]
    rfl

theorem map_ground_regroup (mapping : String → String) (parts : List Pne) (args : List String) :
    (regroup parts args).map (ground mapping) = regroup parts (args.map mapping) := by
  induction parts generalizing args with
  | nil => rfl
  | cons part parts inductionHypothesis =>
    simp [regroup, ground, inductionHypothesis, List.map_take, List.map_drop]

/-! ## Rules for the operands -/

theorem evalParts_eq_some {parts : List Pne} {args : List String} {found : List ℚ} :
    evalParts functions parts args = some found ↔
      List.Forall₂ (fun part value => part.eval functions = some value) (regroup parts args) found := by
  induction parts generalizing args found with
  | nil => cases found <;> simp [evalParts, regroup]
  | cons part parts inductionHypothesis =>
    cases part
    cases found with
    | nil => simp [evalParts, regroup, Option.bind_eq_some_iff]
    | cons first rest =>
      simp only [evalParts, regroup, Option.bind_eq_bind, Option.bind_eq_some_iff, Option.pure_def,
        Option.some.injEq, List.cons.injEq, List.forall₂_cons, ← inductionHypothesis]
      simp [eval]

theorem allParts_iff {parts : List Pne} {args : List String} :
    allParts test parts args = true ↔ ∀ part ∈ regroup parts args, part.all test = true := by
  induction parts generalizing args with
  | nil => simp [allParts, regroup]
  | cons part parts inductionHypothesis =>
    cases part
    simp [allParts, regroup, all, inductionHypothesis]

theorem depth_le_of_mem_regroup {parts : List Pne} {args : List String} {part : Pne}
    (isPart : part ∈ regroup parts args) : part.depth ≤ depthParts parts := by
  induction parts generalizing args with
  | nil => simp [regroup] at isPart
  | cons first parts inductionHypothesis =>
    cases first
    obtain rfl | isLater := by simpa [regroup] using isPart
    · exact le_max_left _ _
    · exact (inductionHypothesis isLater).trans (le_max_right _ _)

/-- The operator of a derived function with operands. -/
def operator (pne : Pne) : Option CalOperator :=
  match pne.symbol with
  | .function _ | .constant _ => none
  | .inverse _ => some .diff
  | .operation op _ => some op

/-- A unary minus has the operator of differences. -/
def combine (pne : Pne) (values : List ℚ) : Option ℚ :=
  match pne.symbol, values with
  | .inverse _, [value] => some (-value)
  | .operation op _, values => op.apply values
  | _, _ => none

theorem eval_eq_some {pne : Pne} {op : CalOperator} (hasOperator : pne.operator = some op) {value : ℚ} :
    pne.eval functions = some value ↔
      ∃ found, List.Forall₂ (fun part value => part.eval functions = some value) pne.operands found ∧
        pne.combine found = some value := by
  obtain ⟨symbol, args⟩ := pne
  cases symbol with
  | function name => simp [operator] at hasOperator
  | constant text => simp [operator] at hasOperator
  | inverse part =>
    simp only [eval, Symbol.eval, symbol_mk, args_mk, operands, combine, Option.map_eq_some_iff,
      List.forall₂_cons_left_iff, List.forall₂_nil_left_iff]
    grind
  | operation op parts =>
    simp [eval, Symbol.eval, operands, combine, Option.bind_eq_some_iff, evalParts_eq_some]

theorem all_iff {pne : Pne} {op : CalOperator} (hasOperator : pne.operator = some op) :
    pne.all test = true ↔ ∀ part ∈ pne.operands, part.all test = true := by
  obtain ⟨symbol, args⟩ := pne
  cases symbol with
  | function name => simp [operator] at hasOperator
  | constant text => simp [operator] at hasOperator
  | inverse part => simp [all, Symbol.all, operands]
  | operation op parts => simp [all, Symbol.all, operands, allParts_iff]

theorem depth_operand_lt {pne part : Pne} (isOperand : part ∈ pne.operands) : part.depth < pne.depth := by
  obtain ⟨symbol, args⟩ := pne
  cases symbol with
  | function name => simp [operands] at isOperand
  | constant text => simp [operands] at isOperand
  | inverse inner =>
    obtain rfl := by simpa [operands] using isOperand
    exact Nat.lt_succ_self _
  | operation op parts => exact Nat.lt_succ_of_le (depth_le_of_mem_regroup isOperand)

/-- The value depends on the functions only where it needs them. -/
theorem eval_mono (agree : ∀ name args value, functions name args = some value →
      functions' name args = some value) {pne : Pne} {value : ℚ}
    (hasValue : pne.eval functions = some value) : pne.eval functions' = some value := by
  induction depthIs : pne.depth using Nat.strong_induction_on generalizing pne value with
  | _ depth inductionHypothesis =>
    cases operator : pne.operator with
    | none =>
      obtain ⟨symbol, args⟩ := pne
      cases symbol with
      | function name => exact agree _ _ _ hasValue
      | constant text => exact hasValue
      | inverse part => simp [Pne.operator] at operator
      | operation op parts => simp [Pne.operator] at operator
    | some op =>
      obtain ⟨found, areValues, combines⟩ := (eval_eq_some operator).mp hasValue
      apply (eval_eq_some operator).mpr
      refine ⟨found, forall₂_imp_of_mem ?_ areValues, combines⟩
      intro part isOperand value isValue
      exact inductionHypothesis part.depth (depthIs ▸ depth_operand_lt isOperand) isValue rfl

end Pne

/-! ## Values of expressions -/

namespace FunctionalExpression

variable {functions : String → List String → Option ℚ} {mapping : String → String}

mutual
theorem eval_derived {expression : FunctionalExpression} {value : ℚ}
    (hasValue : expression.value functions mapping = some value) :
    (expression.derived.ground mapping).eval functions = some value := by
  cases expression with
  | numericConstant number => exact hasValue
  | primitive symbol args => exact hasValue
  | additiveInverse part =>
    rw [FunctionalExpression.value, Option.map_eq_some_iff] at hasValue
    obtain ⟨inner, isInner, rfl⟩ := hasValue
    have partValue := eval_derived isInner
    exact Option.map_eq_some_iff.mpr ⟨inner, partValue, rfl⟩
  | arithmetic op parts =>
    obtain ⟨found, areValues, applies⟩ := value_arithmetic.mp hasValue
    have operator : ((arithmetic op parts).derived.ground mapping).operator = some op := rfl
    apply (Pne.eval_eq_some operator).mpr
    refine ⟨found, ?_, applies⟩
    have grounded : ((arithmetic op parts).derived.ground mapping).operands =
        (derivedAll parts).map (Pne.ground mapping) := Pne.regroup_ground mapping (derivedAll parts)
    rw [grounded]
    exact evalParts_derivedAll areValues
  termination_by sizeOf expression

theorem evalParts_derivedAll {parts : List FunctionalExpression} {found : List ℚ}
    (areValues : List.Forall₂ (fun part value => part.value functions mapping = some value) parts found) :
    List.Forall₂ (fun part value => part.eval functions = some value)
      ((derivedAll parts).map (Pne.ground mapping)) found := by
  cases areValues with
  | nil => exact .nil
  | cons isFirst areRest => exact .cons (eval_derived isFirst) (evalParts_derivedAll areRest)
  termination_by sizeOf parts
end

end FunctionalExpression

end CutPlan.Translate
