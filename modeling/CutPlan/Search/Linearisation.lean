import CutPlan.Search.NumericAbstraction

/-! # Linear expressions of derived variables

The loop of `build_artificial_variables` runs through the arithmetic axioms as the evaluator does.  A
product whose left factor is derived is taken for a product with a constant on the right.
-/

namespace CutPlan.Search

open CutPlan.Sas

/-! ## Folding over axioms in layer order -/

/-- The axioms are sorted by the layers of their variables, and derived operands are computed in lower
layers. -/
structure InLayerOrder (assAxioms : List AssignmentAxiom) (types : ℕ → NumType) (layer : ℕ → ℕ) :
    Prop where
  sorted : assAxioms.Pairwise fun first second =>
    layer first.affectedVariable ≤ layer second.affectedVariable
  descends : ∀ assAxiom ∈ assAxioms, ∀ operand ∈ [assAxiom.varLhs, assAxiom.varRhs],
    types operand = .derived → layer operand < layer assAxiom.affectedVariable
  defined : ∀ assAxiom ∈ assAxioms, ∀ operand ∈ [assAxiom.varLhs, assAxiom.varRhs],
    types operand = .derived → ∃ other ∈ assAxioms, other.affectedVariable = operand

/-- The axiom that decides the value of its variable. -/
def LastWriter (assAxioms : List AssignmentAxiom) (assAxiom : AssignmentAxiom) : Prop :=
  ∃ before after, assAxioms = before ++ assAxiom :: after ∧
    ∀ later ∈ after, later.affectedVariable ≠ assAxiom.affectedVariable

theorem LastWriter.mem {assAxioms : List AssignmentAxiom} {assAxiom : AssignmentAxiom}
    (isLast : LastWriter assAxioms assAxiom) : assAxiom ∈ assAxioms := by
  obtain ⟨before, after, split, -⟩ := isLast
  simp [split]

theorem exists_lastWriter {assAxioms : List AssignmentAxiom} {var : ℕ}
    (written : ∃ assAxiom ∈ assAxioms, assAxiom.affectedVariable = var) :
    ∃ last, LastWriter assAxioms last ∧ last.affectedVariable = var := by
  induction assAxioms with
  | nil => simp at written
  | cons head rest inductionHypothesis =>
    by_cases later : ∃ assAxiom ∈ rest, assAxiom.affectedVariable = var
    · obtain ⟨last, ⟨before, after, split, isLast⟩, same⟩ := inductionHypothesis later
      exact ⟨last, ⟨head :: before, after, by simp [split], isLast⟩, same⟩
    · have own : head.affectedVariable = var := by
        obtain ⟨assAxiom, member, same⟩ := written
        cases List.mem_cons.mp member with
        | inl isHead => exact isHead ▸ same
        | inr inRest => exact absurd ⟨assAxiom, inRest, same⟩ later
      refine ⟨head, ⟨[], rest, rfl, fun other member same => ?_⟩, own⟩
      exact later ⟨other, member, same.trans own⟩

section Fold

variable {Value : Type*} (value : AssignmentAxiom → Value → Value → Value)

/-- One iteration of a loop that computes the affected variable from the two operands. -/
def writeAxiom (table : ℕ → Value) (assAxiom : AssignmentAxiom) : ℕ → Value :=
  Function.update table assAxiom.affectedVariable
    (value assAxiom (table assAxiom.varLhs) (table assAxiom.varRhs))

theorem foldl_writeAxiom_of_unwritten {var : ℕ} (assAxioms : List AssignmentAxiom)
    (unwritten : ∀ assAxiom ∈ assAxioms, assAxiom.affectedVariable ≠ var) (table : ℕ → Value) :
    assAxioms.foldl (writeAxiom value) table var = table var := by
  induction assAxioms generalizing table with
  | nil => rfl
  | cons head rest inductionHypothesis =>
    rw [List.forall_mem_cons] at unwritten
    rw [List.foldl_cons, inductionHypothesis unwritten.2]
    exact Function.update_of_ne (Ne.symm unwritten.1) _ _

variable {value} {assAxioms : List AssignmentAxiom} {types : ℕ → NumType} {layer : ℕ → ℕ}

variable (value) in
/-- In layer order, the last writer of a variable reads its operands as they are in the end. -/
theorem foldl_writeAxiom_lastWriter (ordered : InLayerOrder assAxioms types layer)
    (derived : ∀ assAxiom ∈ assAxioms, types assAxiom.affectedVariable = .derived)
    {assAxiom : AssignmentAxiom} (isLast : LastWriter assAxioms assAxiom) (table : ℕ → Value) :
    assAxioms.foldl (writeAxiom value) table assAxiom.affectedVariable =
      value assAxiom (assAxioms.foldl (writeAxiom value) table assAxiom.varLhs)
        (assAxioms.foldl (writeAxiom value) table assAxiom.varRhs) := by
  obtain ⟨before, after, split, noLater⟩ := isLast
  have sorted := ordered.sorted
  rw [split, List.pairwise_append] at sorted
  have above := (List.pairwise_cons.mp sorted.2.1).1
  -- no axiom from here on writes an operand
  have kept : ∀ operand ∈ [assAxiom.varLhs, assAxiom.varRhs],
      ∀ later ∈ assAxiom :: after, later.affectedVariable ≠ operand := by
    intro operand isOperand later laterMember same
    have laterDerived := derived later (by rw [split]; exact List.mem_append_right _ laterMember)
    have lower := ordered.descends assAxiom (by simp [split]) operand isOperand (same ▸ laterDerived)
    cases List.mem_cons.mp laterMember with
    | inl isSelf => rw [← same, isSelf] at lower; exact lt_irrefl _ lower
    | inr inAfter => have := above later inAfter; rw [same] at this; omega
  have operandKept : ∀ operand ∈ [assAxiom.varLhs, assAxiom.varRhs],
      assAxioms.foldl (writeAxiom value) table operand =
        before.foldl (writeAxiom value) table operand := by
    intro operand isOperand
    rw [split, List.foldl_append]
    exact foldl_writeAxiom_of_unwritten value _ (kept operand isOperand) _
  rw [operandKept assAxiom.varLhs (by simp), operandKept assAxiom.varRhs (by simp), split,
    List.foldl_append, List.foldl_cons, foldl_writeAxiom_of_unwritten value after noLater]
  exact Function.update_self _ _ _

end Fold

namespace ProxyTask

variable (task : ProxyTask)

/-! ## Linear tasks -/

/-- The variable is a constant or computed from constants only. -/
inductive ConstantBuilt : ℕ → Prop
  | constant {var : ℕ} (type : task.numericVarTypes var = .constant) : ConstantBuilt var
  | derived {var : ℕ} (written : ∃ assAxiom ∈ task.assAxioms, assAxiom.affectedVariable = var)
      (lhs : ∀ assAxiom ∈ task.assAxioms, assAxiom.affectedVariable = var →
        ConstantBuilt assAxiom.varLhs)
      (rhs : ∀ assAxiom ∈ task.assAxioms, assAxiom.affectedVariable = var →
        ConstantBuilt assAxiom.varRhs) : ConstantBuilt var

/-- Each product has a factor, and each quotient a divisor, that does not depend on the state. -/
structure LinearAxioms : Prop where
  products : ∀ assAxiom ∈ task.assAxioms, assAxiom.op = .mult →
    task.ConstantBuilt assAxiom.varLhs ∨ task.ConstantBuilt assAxiom.varRhs
  quotients : ∀ assAxiom ∈ task.assAxioms, assAxiom.op = .divi → task.ConstantBuilt assAxiom.varRhs

/-- The linear expression of each variable that an axiom computes has the value of the variable. -/
def LinearisationExact : Prop :=
  ∀ stored, ∀ assAxiom ∈ task.assAxioms,
    (task.artificialVariables assAxiom.affectedVariable).eval task.regularVars
        (task.getNumericVars stored) =
      task.getNumericVars stored assAxiom.affectedVariable

def StateIndependent (var : ℕ) : Prop :=
  ∀ first second, task.getNumericVars first var = task.getNumericVars second var

/-- The products that the loop reads as products with a constant on the right are such products, or
have a left factor of zero. -/
def RightFactorsConstant : Prop :=
  ∀ assAxiom, LastWriter task.assAxioms assAxiom → assAxiom.op = .mult →
    task.numericVarTypes assAxiom.varLhs ≠ .constant →
      task.StateIndependent assAxiom.varRhs ∨
        ∀ stored, task.getNumericVars stored assAxiom.varLhs = 0

/-- The state with its variables other than the regular ones as in the initial state. -/
def resetIrregular (stored : ℕ → ℚ) (var : ℕ) : ℚ :=
  if task.numericVarTypes var = .regular then stored var
  else (task.initialArtificialVariable var).constant

/-- Variables of the metric do not enter the values that axioms compute. -/
def ReadsRegularOnly : Prop :=
  ∀ stored, ∀ assAxiom ∈ task.assAxioms,
    task.getNumericVars stored assAxiom.affectedVariable =
      task.getNumericVars (task.resetIrregular stored) assAxiom.affectedVariable

variable {task}

/-! ## The equations of both loops -/

variable (task) in
/-- The expression that the loop computes from those of the operands. -/
def combined (assAxiom : AssignmentAxiom) (lhs rhs : LinearNumericCondition) :
    LinearNumericCondition :=
  match assAxiom.op with
  | .sum => lhs.add rhs
  | .diff => lhs.sub rhs
  | .mult =>
    if task.numericVarTypes assAxiom.varLhs = .constant then
      { LinearNumericCondition.zero with
        coefficients := fun var => lhs.constant * rhs.coefficients var
        constant := lhs.constant * rhs.constant }
    else
      { LinearNumericCondition.zero with
        coefficients := fun var => lhs.coefficients var * rhs.constant
        constant := lhs.constant * rhs.constant }
  | .divi =>
    { LinearNumericCondition.zero with
      coefficients := fun var => lhs.coefficients var / rhs.constant
      constant := lhs.constant / rhs.constant }

theorem combine_eq : task.combine = writeAxiom task.combined := rfl

theorem getNumericVars_of_not_derived {var : ℕ} (notDerived : task.numericVarTypes var ≠ .derived)
    (stored : ℕ → ℚ) :
    task.getNumericVars stored var =
      if task.numericVarTypes var = .constant then task.initialStateNumeric var else stored var := by
  rw [getNumericVars, NumericTask.evaluateArithmeticAxioms_of_not_derived notDerived]
  cases type : task.numericVarTypes var with
  | derived => exact absurd type notDerived
  | constant => simp
  | unknown | instrumentation | regular => simp

theorem artificialVariables_of_not_derived {var : ℕ}
    (notDerived : task.numericVarTypes var ≠ .derived) :
    task.artificialVariables var = task.initialArtificialVariable var := by
  unfold artificialVariables
  rw [combine_eq]
  refine foldl_writeAxiom_of_unwritten _ _ (fun assAxiom member same => ?_) _
  exact notDerived (same ▸ task.assAxioms_derived assAxiom member)

section Ordered

variable {layer : ℕ → ℕ} (ordered : InLayerOrder task.assAxioms task.numericVarTypes layer)

include ordered

theorem getNumericVars_lastWriter {assAxiom : AssignmentAxiom}
    (isLast : LastWriter task.assAxioms assAxiom) (stored : ℕ → ℚ) :
    task.getNumericVars stored assAxiom.affectedVariable =
      assAxiom.op.eval (task.getNumericVars stored assAxiom.varLhs)
        (task.getNumericVars stored assAxiom.varRhs) :=
  foldl_writeAxiom_lastWriter (fun assAxiom => assAxiom.op.eval) ordered
    task.assAxioms_derived isLast _

theorem artificialVariables_lastWriter {assAxiom : AssignmentAxiom}
    (isLast : LastWriter task.assAxioms assAxiom) :
    task.artificialVariables assAxiom.affectedVariable =
      task.combined assAxiom (task.artificialVariables assAxiom.varLhs)
        (task.artificialVariables assAxiom.varRhs) := by
  unfold artificialVariables
  rw [combine_eq]
  exact foldl_writeAxiom_lastWriter _ ordered task.assAxioms_derived isLast _

/-- What is built from constants has no variables in its expression, and its value in every state. -/
theorem ConstantBuilt.expression {var : ℕ} (built : task.ConstantBuilt var) :
    task.isVariableFree (task.artificialVariables var) = true ∧
      ∀ stored, task.getNumericVars stored var = (task.artificialVariables var).constant := by
  induction built with
  | @constant var type =>
    have notDerived : task.numericVarTypes var ≠ .derived := by simp [type]
    rw [artificialVariables_of_not_derived notDerived]
    refine ⟨?_, fun stored => ?_⟩
    · simp [isVariableFree, initialArtificialVariable, type, LinearNumericCondition.zero]
    · simp [getNumericVars_of_not_derived notDerived, initialArtificialVariable, type]
  | derived written _ _ lhsHolds rhsHolds =>
    obtain ⟨last, isLast, rfl⟩ := exists_lastWriter written
    obtain ⟨lhsFree, lhsValue⟩ := lhsHolds last isLast.mem rfl
    obtain ⟨rhsFree, rhsValue⟩ := rhsHolds last isLast.mem rfl
    simp only [isVariableFree, decide_eq_true_eq] at lhsFree rhsFree ⊢
    rw [artificialVariables_lastWriter ordered isLast]
    refine ⟨fun var member => ?_, fun stored => ?_⟩
    · have lhsZero := lhsFree var member
      have rhsZero := rhsFree var member
      unfold combined
      cases last.op with
      | sum => simp [LinearNumericCondition.add, lhsZero, rhsZero]
      | diff => simp [LinearNumericCondition.sub, lhsZero, rhsZero]
      | mult => dsimp only; split <;> simp [lhsZero, rhsZero]
      | divi => simp [lhsZero]
    · rw [getNumericVars_lastWriter ordered isLast, lhsValue, rhsValue]
      unfold combined
      cases last.op with
      | sum => simp [LinearNumericCondition.add, CalOperator.eval]
      | diff => simp [LinearNumericCondition.sub, CalOperator.eval]
      | mult => dsimp only; split <;> rfl
      | divi => rfl

/-! ## Exactness, axiom by axiom -/

/-- The expression of the variable has its value in the state. -/
def ExactAt (task : ProxyTask) (stored : ℕ → ℚ) (var : ℕ) : Prop :=
  (task.artificialVariables var).eval task.regularVars (task.getNumericVars stored) =
    task.getNumericVars stored var

/-- A last writer with exact operands and a product that is read rightly is exact. -/
theorem exactAt_of_operands (linear : task.LinearAxioms) {assAxiom : AssignmentAxiom}
    (isLast : LastWriter task.assAxioms assAxiom) {stored : ℕ → ℚ}
    (lhsExact : task.ExactAt stored assAxiom.varLhs)
    (rhsExact : task.ExactAt stored assAxiom.varRhs)
    (product : assAxiom.op = .mult → task.numericVarTypes assAxiom.varLhs ≠ .constant →
      task.isVariableFree (task.artificialVariables assAxiom.varRhs) = true ∨
        task.isVariableFree (task.artificialVariables assAxiom.varLhs) = true ∧
          task.getNumericVars stored assAxiom.varLhs = 0) :
    task.ExactAt stored assAxiom.affectedVariable := by
  unfold ExactAt at lhsExact rhsExact ⊢
  rw [getNumericVars_lastWriter ordered isLast, artificialVariables_lastWriter ordered isLast,
    ← lhsExact, ← rhsExact]
  unfold combined
  cases op : assAxiom.op with
  | sum => exact eval_add _ _ _
  | diff => exact eval_sub _ _ _
  | mult =>
    simp only [CalOperator.eval]
    by_cases isConstant : task.numericVarTypes assAxiom.varLhs = .constant
    · have constantBuilt : task.ConstantBuilt assAxiom.varLhs := .constant isConstant
      have built := constantBuilt.expression ordered
      rw [if_pos isConstant, eval_of_isVariableFree built.1]
      simp only [LinearNumericCondition.eval, mul_add, Finset.mul_sum, mul_assoc]
    · rw [if_neg isConstant]
      cases product op isConstant with
      | inl rhsFree =>
        rw [eval_of_isVariableFree rhsFree]
        simp only [LinearNumericCondition.eval, add_mul, Finset.sum_mul, mul_right_comm]
      | inr lhsZero =>
        obtain ⟨lhsFree, zero⟩ := lhsZero
        rw [← lhsExact, eval_of_isVariableFree lhsFree] at zero
        simp only [isVariableFree, decide_eq_true_eq] at lhsFree
        simp only [LinearNumericCondition.eval, zero, zero_mul, add_zero]
        -- both sides are sums over zero coefficients
        rw [Finset.sum_eq_zero fun var member => by rw [lhsFree var member, zero_mul, zero_mul],
          Finset.sum_eq_zero fun var member => by rw [lhsFree var member, zero_mul], zero_mul]
  | divi =>
    have built := (linear.quotients assAxiom isLast.mem op).expression ordered
    rw [CalOperator.eval, eval_of_isVariableFree built.1]
    simp only [LinearNumericCondition.eval, add_div, Finset.sum_div, div_mul_eq_mul_div]

/-! ## Exactness of all expressions -/

omit ordered in
theorem eval_congr {expression : LinearNumericCondition} {first second : ℕ → ℚ}
    (agree : ∀ var, task.numericVarTypes var = .regular → first var = second var) :
    expression.eval task.regularVars first = expression.eval task.regularVars second := by
  unfold LinearNumericCondition.eval
  congr 1
  refine Finset.sum_congr rfl fun var member => ?_
  rw [agree var (mem_regularVars.mp member)]

omit ordered in
theorem getNumericVars_of_regular {var : ℕ} (regular : task.numericVarTypes var = .regular)
    (stored : ℕ → ℚ) : task.getNumericVars stored var = stored var := by
  rw [getNumericVars_of_not_derived (by simp [regular])]
  simp [regular]

omit ordered in
theorem eval_resetIrregular (stored : ℕ → ℚ) (expression : LinearNumericCondition) :
    expression.eval task.regularVars (task.getNumericVars (task.resetIrregular stored)) =
      expression.eval task.regularVars (task.getNumericVars stored) := by
  apply eval_congr
  intro var regular
  simp [getNumericVars_of_regular regular, resetIrregular, regular]

omit ordered in
/-- In a reset state all variables that no axiom computes are expressed exactly. -/
theorem exactAt_of_not_derived {var : ℕ} (notDerived : task.numericVarTypes var ≠ .derived)
    (stored : ℕ → ℚ) : task.ExactAt (task.resetIrregular stored) var := by
  unfold ExactAt
  rw [artificialVariables_of_not_derived notDerived]
  by_cases known : task.numericVarTypes var = .regular ∨ task.numericVarTypes var = .constant
  · refine eval_initialArtificialVariable (fun other isConstant => ?_) known
    rw [getNumericVars_of_not_derived (by simp [isConstant]), if_pos isConstant]
  · rw [not_or] at known
    rw [getNumericVars_of_not_derived notDerived, if_neg known.2, resetIrregular, if_neg known.1]
    refine eval_of_isVariableFree ?_ _
    cases type : task.numericVarTypes var with
    | regular => exact absurd type known.1
    | constant | derived | unknown | instrumentation =>
      simp [isVariableFree, initialArtificialVariable, type, LinearNumericCondition.zero]

omit ordered in
/-- An exact expression of a value that does not depend on the state has no variables. -/
theorem isVariableFree_of_stateIndependent {var : ℕ} (independent : task.StateIndependent var)
    (exact : ∀ stored, task.ExactAt (task.resetIrregular stored) var) :
    task.isVariableFree (task.artificialVariables var) = true := by
  simp only [isVariableFree, decide_eq_true_eq]
  intro chosen member
  have value (stored : ℕ → ℚ) :
      (task.artificialVariables var).eval task.regularVars stored =
        task.getNumericVars (task.resetIrregular stored) var := by
    rw [← exact stored, eval_resetIrregular]
    exact eval_congr fun other regular => (getNumericVars_of_regular regular stored).symm
  have same : (task.artificialVariables var).eval task.regularVars (Pi.single chosen 1) =
      (task.artificialVariables var).eval task.regularVars 0 := by
    rw [value, value]
    exact independent _ _
  simp only [LinearNumericCondition.eval, Pi.zero_apply, mul_zero, Finset.sum_const_zero, zero_add,
    add_eq_right] at same
  rw [Finset.sum_eq_single_of_mem chosen member] at same
  · simpa using same
  · intro other _ different
    rw [Pi.single_eq_of_ne different, mul_zero]

/-- Reset states are expressed exactly, by induction on the layers. -/
theorem exactAt_resetIrregular (linear : task.LinearAxioms) (factors : task.RightFactorsConstant)
    (bound : ℕ) :
    ∀ assAxiom, LastWriter task.assAxioms assAxiom → layer assAxiom.affectedVariable ≤ bound →
      ∀ stored, task.ExactAt (task.resetIrregular stored) assAxiom.affectedVariable := by
  induction bound using Nat.strong_induction_on with
  | _ bound inductionHypothesis =>
    intro assAxiom isLast within
    have operandExact : ∀ operand ∈ [assAxiom.varLhs, assAxiom.varRhs],
        ∀ stored, task.ExactAt (task.resetIrregular stored) operand := by
      intro operand isOperand
      by_cases derived : task.numericVarTypes operand = .derived
      · obtain ⟨last, lastWriter, rfl⟩ :=
          exists_lastWriter (ordered.defined assAxiom isLast.mem operand isOperand derived)
        have lower := ordered.descends assAxiom isLast.mem _ isOperand derived
        exact inductionHypothesis _ (lt_of_lt_of_le lower within) last lastWriter le_rfl
      · exact exactAt_of_not_derived derived
    intro stored
    refine exactAt_of_operands ordered linear isLast (operandExact _ (by simp) stored)
      (operandExact _ (by simp) stored) fun isProduct notConstant => ?_
    cases linear.products assAxiom isLast.mem isProduct with
    | inr rhsBuilt => exact .inl (rhsBuilt.expression ordered).1
    | inl lhsBuilt =>
      cases factors assAxiom isLast isProduct notConstant with
      | inl independent =>
        exact .inl (isVariableFree_of_stateIndependent independent (operandExact _ (by simp)))
      | inr zero => exact .inr ⟨(lhsBuilt.expression ordered).1, zero _⟩

omit ordered in
theorem readsRegularOnly_of_exact (exact : task.LinearisationExact) : task.ReadsRegularOnly := by
  intro stored assAxiom member
  rw [← exact stored assAxiom member, ← exact (task.resetIrregular stored) assAxiom member]
  exact (eval_resetIrregular stored _).symm

theorem rightFactorsConstant_of_exact (linear : task.LinearAxioms)
    (exact : task.LinearisationExact) : task.RightFactorsConstant := by
  intro assAxiom isLast isProduct notConstant
  cases linear.products assAxiom isLast.mem isProduct with
  | inr rhsBuilt =>
    refine .inl fun first second => ?_
    rw [(rhsBuilt.expression ordered).2, (rhsBuilt.expression ordered).2]
  | inl lhsBuilt =>
    obtain ⟨lhsFree, lhsValue⟩ := lhsBuilt.expression ordered
    -- the expression of the product has lost the right factor's variables
    have product (stored : ℕ → ℚ) :
        (task.artificialVariables assAxiom.varLhs).constant *
            (task.artificialVariables assAxiom.varRhs).constant =
          (task.artificialVariables assAxiom.varLhs).constant *
            task.getNumericVars stored assAxiom.varRhs := by
      have value := exact stored assAxiom isLast.mem
      rw [getNumericVars_lastWriter ordered isLast, artificialVariables_lastWriter ordered isLast,
        isProduct, lhsValue] at value
      simp only [isVariableFree, decide_eq_true_eq] at lhsFree
      refine Eq.trans ?_ value
      simp only [combined, isProduct, if_neg notConstant, LinearNumericCondition.eval]
      rw [Finset.sum_eq_zero fun var member => by rw [lhsFree var member, zero_mul, zero_mul],
        zero_add]
    by_cases zero : (task.artificialVariables assAxiom.varLhs).constant = 0
    · exact .inr fun stored => (lhsValue stored).trans zero
    · refine .inl fun first second => ?_
      rw [← mul_left_cancel₀ zero (product first), ← mul_left_cancel₀ zero (product second)]

/-- The linear expressions are exact in every state if and only if no product has a derived left
factor, other than zero, to a right factor that depends on the state, and the axioms read no
variables of the metric. -/
theorem linearisationExact_iff (linear : task.LinearAxioms) :
    task.LinearisationExact ↔ task.RightFactorsConstant ∧ task.ReadsRegularOnly := by
  constructor
  · intro exact
    exact ⟨rightFactorsConstant_of_exact ordered linear exact, readsRegularOnly_of_exact exact⟩
  · intro holds stored assAxiom member
    obtain ⟨factors, regularOnly⟩ := holds
    obtain ⟨last, isLast, same⟩ := exists_lastWriter ⟨assAxiom, member, rfl⟩
    have exact := exactAt_resetIrregular ordered linear factors _ last isLast le_rfl stored
    rw [same] at exact
    rw [regularOnly stored assAxiom member, ← eval_resetIrregular]
    exact exact

end Ordered

/-! ## Two tasks -/

/-- Variables: 0 is regular, 1 and 2 are the constants 2 and 3. -/
def scaledTask (assAxioms : List AssignmentAxiom)
    (derived : ∀ assAxiom ∈ assAxioms, 3 ≤ assAxiom.affectedVariable) : ProxyTask where
  numericVarTypes := fun var => if var = 0 then .regular else if var ≤ 2 then .constant else .derived
  assAxioms := assAxioms
  assAxioms_derived := by
    intro assAxiom member
    have isDerived := derived assAxiom member
    rw [if_neg (by omega), if_neg (by omega)]
  numericVarCount := 5
  initialStateNumeric := fun var => if var = 1 then 2 else if var = 2 then 3 else 0
  regular_lt_count := by
    intro var
    split
    · omega
    · split <;> simp

/-- Variable 3 is 2 + 3, and variable 4 its product with the regular variable. -/
def derivedFactorTask : ProxyTask :=
  scaledTask [⟨3, .sum, 1, 2⟩, ⟨4, .mult, 3, 0⟩] (by decide)

/-- Variable 3 is the product of 2 with the regular variable. -/
def constantFactorTask : ProxyTask :=
  scaledTask [⟨3, .mult, 1, 0⟩] (by decide)

theorem derivedFactorTask_inLayerOrder :
    InLayerOrder derivedFactorTask.assAxioms derivedFactorTask.numericVarTypes id where
  sorted := by decide
  descends := by decide
  defined := by decide

theorem derivedFactorTask_linear : derivedFactorTask.LinearAxioms where
  products := by
    intro assAxiom member isProduct
    have built : derivedFactorTask.ConstantBuilt 3 := by
      refine .derived ⟨⟨3, .sum, 1, 2⟩, by decide, rfl⟩ ?_ ?_ <;>
      · intro other otherMember same
        cases List.mem_pair.mp otherMember with
        | inl isSum => subst isSum; exact .constant rfl
        | inr isProduct => subst isProduct; simp at same
    cases List.mem_pair.mp member with
    | inl isSum => subst isSum; simp at isProduct
    | inr isMult => subst isMult; exact .inl built
  quotients := by
    intro assAxiom member isQuotient
    cases List.mem_pair.mp member with
    | inl isSum => subst isSum; simp at isQuotient
    | inr isMult => subst isMult; simp at isQuotient

/-- (2 + 3) * x is 5 where x is 1, and the expression built for it is zero. -/
theorem derivedFactor_lost :
    InLayerOrder derivedFactorTask.assAxioms derivedFactorTask.numericVarTypes id ∧
      derivedFactorTask.LinearAxioms ∧ ¬ derivedFactorTask.LinearisationExact := by
  refine ⟨derivedFactorTask_inLayerOrder, derivedFactorTask_linear, fun exact => ?_⟩
  have value := exact (fun _ => 1) ⟨4, .mult, 3, 0⟩ (by decide)
  revert value
  decide +kernel

theorem constantFactor_exact :
    constantFactorTask.LinearisationExact ↔
      constantFactorTask.RightFactorsConstant ∧ constantFactorTask.ReadsRegularOnly := by
  have ordered :
      InLayerOrder constantFactorTask.assAxioms constantFactorTask.numericVarTypes id :=
    ⟨by decide, by decide, by decide⟩
  refine linearisationExact_iff ordered ⟨fun assAxiom member _ => ?_, fun assAxiom member op => ?_⟩
  · rw [List.mem_singleton.mp member]
    exact .inl (.constant rfl)
  · rw [List.mem_singleton.mp member] at op
    simp at op

end ProxyTask

end CutPlan.Search
