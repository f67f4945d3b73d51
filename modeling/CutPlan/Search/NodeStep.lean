import CutPlan.Search.Step

set_option linter.unusedSectionVars false

/-! # What a step does to the search nodes

A step changes at most one node, and every change of a parent pointer comes from the application of
one operator.
-/

namespace CutPlan.Search

open CutPlan.Lib

namespace EagerSearch

variable {S O M Q : Type} [DecidableEq S] [DecidableEq O] (search : EagerSearch S O M Q)

/-- The node changes that the successor generation can make. -/
inductive SuccessorChange (state : SearchState S O M Q) (parent : S) (op : O) :
    SearchSpace S O → Prop where
  | unchanged : SuccessorChange state parent op state.nodes
  | deadEnd : (state.nodes (search.task.getSuccessorState parent op)).status = .new →
      SuccessorChange state parent op
        (Function.update state.nodes (search.task.getSuccessorState parent op)
          (state.nodes (search.task.getSuccessorState parent op)).markAsDeadEnd)
  | link (status : NodeStatus) : search.Links state parent op →
      status = .opened ∨ status = .closed →
      SuccessorChange state parent op
        (Function.update state.nodes (search.task.getSuccessorState parent op)
          (search.linkedInfo state parent op status))

variable {search} in
theorem SuccessorOutcome.change {isPreferred : Bool} {state after : SearchState S O M Q} {parent : S}
    {op : O} (outcome : search.SuccessorOutcome isPreferred state parent op after) :
    search.SuccessorChange state parent op after.nodes := by
  cases outcome with
  | knownDeadEnd _ => exact .unchanged
  | notCheaper => exact .unchanged
  | newDeadEnd isNew => exact .deadEnd isNew
  | opened opens => exact .link .opened (.inl opens) (.inl rfl)
  | reopened rewires => exact .link .opened (.inr rewires) (.inl rfl)
  | parentUpdated rewires => exact .link _ (.inr rewires) rewires.1

/-- The operator application the next step tries: its operator passed the bound test. -/
def attempt (state : SearchState S O M Q) : Option (S × O) :=
  match state.control with
  | .expand id _ (op :: _) =>
    if search.exceedsBound (state.nodes id) op then none else some (id, op)
  | .injectChains injection _ _ =>
    match injection.actions with
    | action :: _ =>
      (search.selectOperator state injection.currentState action).map
        fun op => (injection.currentState, op)
    | [] => none
  | _ => none

/-- The entry the next step closes. -/
def ClosesNext (state : SearchState S O M Q) (id : S) : Prop :=
  state.control = .fetchNextNode ∧
    ∃ key rest, search.openList.removeMin state.openList = some (id, key, rest) ∧
      search.fetchResult state id key = .close

/-- The known state that the next step recognises as a dead end: a resumed source, or an entry whose
estimate became infinite under multi-path dependence. -/
def RevisitsDeadEnd (state : SearchState S O M Q) (id : S) : Prop :=
  (state.nodes id).status = .opened ∨
    (state.control = .fetchNextNode ∧ search.useMultiPathDependence = true ∧
      id ∈ search.openList.entries state.openList)

/-- The node changes that a step can make. -/
inductive NodeStep (state : SearchState S O M Q) : SearchSpace S O → Prop where
  | unchanged : NodeStep state state.nodes
  | openInitial : state.control = .beforeSearch →
      search.openList.isDeadEnd state.memory search.task.initialState = false →
      NodeStep state (Function.update state.nodes search.task.initialState
        (state.nodes search.task.initialState).openInitial)
  | close (id : S) : search.ClosesNext state id →
      NodeStep state (Function.update state.nodes id (state.nodes id).close)
  | revisitedDeadEnd (id : S) : search.RevisitsDeadEnd state id →
      NodeStep state (Function.update state.nodes id (state.nodes id).markAsDeadEnd)
  | newDeadEnd (parent : S) (op : O) : search.attempt state = some (parent, op) →
      (state.nodes (search.task.getSuccessorState parent op)).status = .new →
      NodeStep state (Function.update state.nodes (search.task.getSuccessorState parent op)
        (state.nodes (search.task.getSuccessorState parent op)).markAsDeadEnd)
  | link (parent : S) (op : O) (status : NodeStatus) :
      search.attempt state = some (parent, op) → search.Links state parent op →
      status = .opened ∨ status = .closed →
      NodeStep state (Function.update state.nodes (search.task.getSuccessorState parent op)
        (search.linkedInfo state parent op status))

theorem NodeStep.of_attempt {state : SearchState S O M Q} {parent : S} {op : O}
    {nodes : SearchSpace S O} (attempted : search.attempt state = some (parent, op))
    (change : search.SuccessorChange state parent op nodes) : search.NodeStep state nodes := by
  cases change with
  | unchanged => exact .unchanged
  | deadEnd isNew => exact .newDeadEnd parent op attempted isNew
  | link status links statusCases => exact .link parent op status attempted links statusCases

variable {search} in
theorem Step.nodeStep {input : SearchInput S} {state after : SearchState S O M Q}
    (step : search.Step input state after) : search.NodeStep state after.nodes := by
  cases step with
  | initialOpened progress control alive => exact .openInitial control alive
  | actionIntoDeadEnd injection _ _ _ _ op _ control actionsDef selected outcome _
  | actionApplied injection _ _ _ _ op _ control actionsDef selected outcome _ =>
    have attempted : search.attempt state = some (injection.currentState, op) := by
      simp [attempt, control, actionsDef, selected]
    exact .of_attempt search attempted (outcome.change)
  | sourceDeadEnd injection _ _ _ isOpen _ _ =>
    exact .revisitedDeadEnd injection.sourceId (.inl isOpen)
  | entryDeadEnd id key rest control removed verdict =>
    refine .revisitedDeadEnd id (.inr ⟨control, search.fetchResult_deadEnd verdict, ?_⟩)
    rw [search.openList.removeMin_entries removed]
    exact Multiset.mem_cons_self _ _
  | closed id key rest control removed verdict => exact .close id ⟨control, key, rest, removed, verdict⟩
  | operatorApplied id _ op _ _ control within outcome =>
    have attempted : search.attempt state = some (id, op) := by simp [attempt, control, within]
    exact .of_attempt search attempted (outcome.change)
  | _ => exact .unchanged

/-! ## Changes of the records -/

/-- The two records differ in their status at most. -/
structure SameRecord (before after : SearchNodeInfo S O) : Prop where
  g : after.g = before.g
  realG : after.realG = before.realG
  parentStateId : after.parentStateId = before.parentStateId
  creatingOperator : after.creatingOperator = before.creatingOperator

theorem SameRecord.refl (info : SearchNodeInfo S O) : SameRecord info info := ⟨rfl, rfl, rfl, rfl⟩

theorem sameRecord_update (nodes : SearchSpace S O) (target : S) (status : NodeStatus) (id : S) :
    SameRecord (nodes id)
      (Function.update nodes target { nodes target with status := status } id) := by
  rw [Function.update_apply]
  split
  next same =>
    subst same
    exact ⟨rfl, rfl, rfl, rfl⟩
  next => exact .refl _

end EagerSearch

end CutPlan.Search
