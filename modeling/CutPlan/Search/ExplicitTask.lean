import CutPlan.Search.EagerSearch

/-! # Explicit transition graphs

Tasks given by a list of edges between numbered states, and the greedy search on them: a tie-breaking
open list over one heuristic, no pruning and no preferred operators.
-/

namespace CutPlan.Search

structure Edge where
  name : String
  source : ℕ
  target : ℕ
  cost : ℚ
  deriving DecidableEq

/-- State 0 is the initial state. -/
def explicitTask (edges : List Edge) (goals forbidden : List ℕ) : Task ℕ Edge where
  initialState := 0
  operators := edges
  name := Edge.name
  isAxiom := fun _ => false
  cost := Edge.cost
  isUnitCost := edges.all fun edge => edge.cost = 1
  isApplicable := fun edge state => edge.source = state
  getSuccessorState := fun _ edge => edge.target
  testGoal := fun state => state ∈ goals
  violatesGlobalConstraint := fun state => state ∈ forbidden
  operators_not_axiom := fun _ _ => rfl

/-- A path-independent heuristic without memory, finite everywhere. -/
def tableHeuristic (h : ℕ → ℚ) : Heuristics ℕ Edge Unit where
  initialMemory := ()
  reachState := fun _ _ _ _ => ()
  primaryValue := fun _ state => h state
  preferredOperators := fun _ _ => []
  cachedValues := fun _ context => [(0, h context.state)]

def tableOpenList (h : ℕ → ℚ) (prefOnly : Bool) : OpenList ℕ Unit (TieBreakingBuckets ℕ) :=
  TieBreakingOptions.openList
    { prefOnly := prefOnly
      firstEvaluator :=
        { isInfinite := fun _ _ => false
          value := fun _ context => h context.state
          deadEndsAreReliable := false }
      otherEvaluators := []
      unsafePruning := true }

structure GreedyOptions where
  h : ℕ → ℚ
  costType : OperatorCost
  bound : ℤ
  reopenClosedNodes : Bool
  prefOnly : Bool
  llmTriggerMonitor : LlmMonitorOptions
  parseLlmResponseBody : String → ParsedLlmResponse

def greedySearch (task : Task ℕ Edge) (options : GreedyOptions) :
    EagerSearch ℕ Edge Unit (TieBreakingBuckets ℕ) where
  task := task
  costType := options.costType
  bound := options.bound
  reopenClosedNodes := options.reopenClosedNodes
  useMultiPathDependence := false
  openList := tableOpenList options.h options.prefOnly
  heuristics := tableHeuristic options.h
  generateApplicableOps := fun state =>
    task.operators.filter fun op => task.isApplicable op state
  pruneOperators := fun _ ops => ops
  llmTriggerMonitor := options.llmTriggerMonitor
  parseLlmResponseBody := options.parseLlmResponseBody
  generateApplicableOps_sound := fun member => List.mem_filter.mp member
  pruneOperators_subset := fun _ ops => List.Subset.refl ops
  isDeadEnd_reachState := fun _ _ _ _ _ _ => rfl

/-- `steps` steps in which nothing arrives and nothing is requested. -/
def quietInputs (steps : ℕ) : List (SearchInput ℕ) :=
  List.replicate steps { completed := [], requests := [] }

/-! ## A chain of two operators -/

def chainPlan : List Edge := [⟨"first", 0, 1, 1⟩, ⟨"second", 1, 2, 1⟩]

def chainTask : Task ℕ Edge := explicitTask chainPlan [2] []

def chainSearch : EagerSearch ℕ Edge Unit (TieBreakingBuckets ℕ) :=
  greedySearch chainTask
    { h := fun _ => 0
      costType := .normal
      bound := 3
      reopenClosedNodes := true
      prefOnly := false
      llmTriggerMonitor := noRequests
      parseLlmResponseBody := fun _ => { valid := false, status := "", actionChains := [] } }

theorem chainSearch_nonneg : chainSearch.task.NonnegativeCosts := by
  simp [Task.NonnegativeCosts, chainSearch, greedySearch, chainTask, explicitTask, chainPlan]

end CutPlan.Search
