import Mathlib.Tactic

/-! # The task seen by the search engines

`Task` collects what the search engines read of the global task: the operators with their costs,
the successor function of the state registry, the goal test and the global constraint.  A registered
state stands for its own `StateID`, because the registry keeps states and ids in bijection.  Costs
are exact rationals.
-/

namespace CutPlan.Search

/-- The option `cost_type`. -/
inductive OperatorCost where
  | normal
  | one
  | plusOne
  deriving DecidableEq, Repr

structure Task (S O : Type) where
  initialState : S
  operators : List O
  name : O → String
  isAxiom : O → Bool
  cost : O → ℚ
  /-- `is_unit_cost()`: the smallest and the largest action cost are both 1. -/
  isUnitCost : Bool
  isApplicable : O → S → Bool
  getSuccessorState : S → O → S
  testGoal : S → Bool
  violatesGlobalConstraint : S → Bool
  operators_not_axiom : ∀ op ∈ operators, isAxiom op = false

namespace Task

variable {S O : Type} (task : Task S O)

def NonnegativeCosts : Prop :=
  ∀ op ∈ task.operators, 0 ≤ task.cost op

def getAdjustedActionCost (costType : OperatorCost) (op : O) : ℚ :=
  if task.isAxiom op then 0
  else
    match costType with
    | .normal => task.cost op
    | .one => 1
    | .plusOne => if task.isUnitCost then 1 else task.cost op + 1

def calculatePlanCost (plan : List O) : ℚ :=
  (plan.map task.cost).sum

@[simp] theorem calculatePlanCost_nil : task.calculatePlanCost [] = 0 := rfl

@[simp] theorem calculatePlanCost_cons (op : O) (plan : List O) :
    task.calculatePlanCost (op :: plan) = task.cost op + task.calculatePlanCost plan := by
  simp [calculatePlanCost]

@[simp] theorem calculatePlanCost_append (first second : List O) :
    task.calculatePlanCost (first ++ second) =
      task.calculatePlanCost first + task.calculatePlanCost second := by
  simp [calculatePlanCost]

theorem getAdjustedActionCost_nonneg (nonneg : task.NonnegativeCosts) (costType : OperatorCost)
    {op : O} (member : op ∈ task.operators) : 0 ≤ task.getAdjustedActionCost costType op := by
  have costNonneg := nonneg op member
  unfold getAdjustedActionCost
  split
  · exact le_refl _
  · cases costType with
    | normal => exact costNonneg
    | one => norm_num
    | plusOne =>
      simp only
      split <;> linarith

/-! ## Executing operator sequences -/

/-- The operator belongs to the task, is applicable in the state and leads to the successor. -/
structure Transition (state : S) (op : O) (successor : S) : Prop where
  member : op ∈ task.operators
  applicable : task.isApplicable op state = true
  reaches : task.getSuccessorState state op = successor

/-- A sequence of transitions of the task leads from one state to another. -/
inductive Executes : S → List O → S → Prop where
  | nil (state : S) : Executes state [] state
  | cons {state successor goal : S} {op : O} {plan : List O}
      (transition : task.Transition state op successor) (rest : Executes successor plan goal) :
      Executes state (op :: plan) goal

def statesAlong : S → List O → List S
  | state, [] => [state]
  | state, op :: plan => state :: statesAlong (task.getSuccessorState state op) plan

variable {task}

theorem Executes.snoc {start state successor : S} {plan : List O}
    (executes : task.Executes start plan state) {op : O}
    (transition : task.Transition state op successor) :
    task.Executes start (plan ++ [op]) successor := by
  induction executes with
  | nil state => exact .cons transition (.nil _)
  | cons head _ inductionHypothesis => exact .cons head (inductionHypothesis transition)

theorem Executes.members {start goal : S} {plan : List O} (executes : task.Executes start plan goal) :
    ∀ op ∈ plan, op ∈ task.operators := by
  induction executes with
  | nil state => simp
  | cons head _ inductionHypothesis => exact List.forall_mem_cons.mpr ⟨head.member, inductionHypothesis⟩

theorem calculatePlanCost_nonneg (nonneg : task.NonnegativeCosts) {plan : List O}
    (members : ∀ op ∈ plan, op ∈ task.operators) : 0 ≤ task.calculatePlanCost plan := by
  refine List.sum_nonneg fun cost member => ?_
  obtain ⟨op, opMember, rfl⟩ := List.mem_map.mp member
  exact nonneg op (members op opMember)

end Task

end CutPlan.Search
