import CutPlan.Lib.Machine
import CutPlan.Search.ActionChain
import CutPlan.Search.LlmMonitor
import CutPlan.Search.OpenList
import CutPlan.Search.SearchSpace

/-! # Eager best-first search with injected action chains

`EagerSearch` as a machine.  The unbounded loops of the source (waiting for responses, discarding
entries, following parent pointers) and the points where responses arrive or requests are submitted
make single steps of the machine, and `Control` names the program point a step starts from.  A step
handles one operator application, one action of a chain, one entry of the open list or one link of
the traced path.
-/

namespace CutPlan.Search

open CutPlan.Lib

/-- The constant members of the engine.  The successor generator and the pruning method enter as
functions; pruning may drop and reorder operators.  A heuristic that is told of a reached state
changes its record of that state only. -/
structure EagerSearch (S O M Q : Type) where
  task : Task S O
  costType : OperatorCost
  bound : ℤ
  reopenClosedNodes : Bool
  useMultiPathDependence : Bool
  openList : OpenList S M Q
  heuristics : Heuristics S O M
  generateApplicableOps : S → List O
  pruneOperators : S → List O → List O
  llmTriggerMonitor : LlmMonitorOptions
  parseLlmResponseBody : String → ParsedLlmResponse
  generateApplicableOps_sound : ∀ {state op}, op ∈ generateApplicableOps state →
    op ∈ task.operators ∧ task.isApplicable op state = true
  pruneOperators_subset : ∀ state ops, pruneOperators state ops ⊆ ops
  isDeadEnd_reachState : ∀ memory parent op successor other, other ≠ successor →
    openList.isDeadEnd (heuristics.reachState memory parent op successor) other =
      openList.isDeadEnd memory other

inductive SearchStatus where
  | inProgress
  | timeout
  | failed
  | solved
  deriving DecidableEq, Repr

/-- The two places that call `poll_llm_responses`: the head of the loop in `fetch_next_node` and the
end of `step`. -/
inductive PollSite where
  | loopHead
  | endOfStep
  deriving DecidableEq, Repr

/-- A call of `inject_llm_action_chain`: the actions of the chain not yet applied, the state they
start in, and the chains of the same response still to come. -/
structure Injection (S : Type) where
  sourceId : S
  sourceWasSuspended : Bool
  currentState : S
  actions : List String
  chains : List (List String)

inductive Control (S O : Type) where
  | beforeSearch
  | pollBridge (site : PollSite)
  | processResponses (responses : List (LlmResponse S)) (site : PollSite)
  | injectChains (injection : Injection S) (responses : List (LlmResponse S)) (site : PollSite)
  | fetchNextNode
  | checkGoal (state : S)
  | expand (state : S) (preferredOps : List O) (ops : List O)
  | tracePath (goalState : S) (currentState : S) (path : List O)
  | finished (status : SearchStatus) (plan : Option (List O)) (lastPoll : List (LlmResponse S))

/-- `closings` records the nodes in the order in which they were closed. -/
structure SearchState (S O M Q : Type) where
  nodes : SearchSpace S O
  openList : Q
  memory : M
  progress : SearchProgress
  monitor : LlmTriggerMonitor S
  closings : List (S × SearchNodeInfo S O)
  control : Control S O

/-- The plan of a search that ended with one. -/
def SearchState.plan {S O M Q : Type} (state : SearchState S O M Q) : Option (List O) :=
  match state.control with
  | .finished _ plan _ => plan
  | _ => none

theorem SearchState.finished_of_plan {S O M Q : Type} {state : SearchState S O M Q} {plan : List O}
    (returned : state.plan = some plan) :
    ∃ status lastPoll, state.control = .finished status (some plan) lastPoll := by
  unfold SearchState.plan at returned
  split at returned
  next status _ lastPoll control => exact ⟨status, lastPoll, returned ▸ control⟩
  next => cases returned

def SearchState.status {S O M Q : Type} (state : SearchState S O M Q) : SearchStatus :=
  match state.control with
  | .finished status _ _ => status
  | _ => .inProgress

/-- What one step may read: the responses the bridge has completed and the states the triggers ask
for. -/
structure SearchInput (S : Type) where
  completed : List (LlmResponse S)
  requests : List S

namespace EagerSearch

variable {S O M Q : Type} [DecidableEq S] [DecidableEq O] (search : EagerSearch S O M Q)

/-! ## Generating successors -/

/-- The test made before an operator is applied, in `step` and in `inject_llm_action_chain`. -/
def reachesBound (realG : ℤ) (cost : ℚ) : Bool :=
  (search.bound : ℚ) ≤ realG + cost

def exceedsBound (node : SearchNodeInfo S O) (op : O) : Bool :=
  search.reachesBound node.realG (search.task.cost op)

def insertEntry (context : EvaluationContext S) (state : SearchState S O M Q) :
    SearchState S O M Q :=
  { state with openList := search.openList.insert state.memory context state.openList }

def rewardProgress (context : EvaluationContext S) (state : SearchState S O M Q) :
    SearchState S O M Q :=
  let (progress, improved) :=
    state.progress.checkProgress (search.heuristics.cachedValues state.memory context)
  { state with
    progress := progress
    openList :=
      if improved then search.openList.boostPreferred state.openList else state.openList }

def setNode (id : S) (info : SearchNodeInfo S O) (state : SearchState S O M Q) :
    SearchState S O M Q :=
  { state with nodes := Function.update state.nodes id info }

def reachState (parent : S) (op : O) (state : SearchState S O M Q) : SearchState S O M Q :=
  { state with
    memory := search.heuristics.reachState state.memory parent op
      (search.task.getSuccessorState parent op) }

/-- The branch for a successor that was not seen before. -/
def openSuccessor (isPreferred : Bool) (parent : S) (op : O) (state : SearchState S O M Q) :
    SearchState S O M Q :=
  let successor := search.task.getSuccessorState parent op
  let node := state.nodes parent
  let context : EvaluationContext S :=
    { state := successor
      g := node.g + search.task.getAdjustedActionCost search.costType op
      isPreferred := isPreferred }
  if search.openList.isDeadEnd state.memory successor then
    setNode successor (state.nodes successor).markAsDeadEnd state
  else
    search.rewardProgress context <| search.insertEntry context <|
      setNode successor
        (.openNode search.task search.costType parent node op (state.nodes successor)) state

/-- The branch for a cheaper path to an open or closed successor. -/
def rewireSuccessor (isPreferred : Bool) (parent : S) (op : O) (state : SearchState S O M Q) :
    SearchState S O M Q :=
  let successor := search.task.getSuccessorState parent op
  let node := state.nodes parent
  if search.reopenClosedNodes then
    let reopened : SearchNodeInfo S O :=
      .reopen search.task search.costType parent node op (state.nodes successor)
    search.insertEntry { state := successor, g := reopened.g, isPreferred := isPreferred } <|
      setNode successor reopened state
  else
    setNode successor
      (.updateParent search.task search.costType parent node op (state.nodes successor)) state

/-- The body shared by the loop over the applicable operators and the loop over a chain, after the
bound test. -/
def generateSuccessor (isPreferred : Bool) (parent : S) (op : O) (state : SearchState S O M Q) :
    SearchState S O M Q :=
  let successor := search.task.getSuccessorState parent op
  let node := state.nodes parent
  let successorNode := state.nodes successor
  if successorNode.isDeadEnd then state
  else
    let reached :=
      if search.useMultiPathDependence || successorNode.isNew then
        search.reachState parent op state
      else state
    if successorNode.isNew then search.openSuccessor isPreferred parent op reached
    else if (node.g : ℚ) + search.task.getAdjustedActionCost search.costType op < successorNode.g
    then search.rewireSuccessor isPreferred parent op reached
    else reached

/-! ## Injecting action chains -/

def requeueLlmSource (sourceId : S) (state : SearchState S O M Q) : SearchState S O M Q :=
  let sourceNode := state.nodes sourceId
  if !search.llmTriggerMonitor.skipPending then state
  else if !sourceNode.isOpen || sourceNode.isDeadEnd then state
  else if search.openList.isDeadEnd state.memory sourceId then
    setNode sourceId sourceNode.markAsDeadEnd state
  else
    search.insertEntry { state := sourceId, g := sourceNode.g, isPreferred := false } state

/-- The operator an action of a chain applies: it must be known and applicable, and the parent must
pass the tests of `inject_llm_action_chain`. -/
def selectOperator (state : SearchState S O M Q) (current : S) (action : String) : Option O :=
  match search.task.resolveAction current action with
  | .unknownAction => none
  | .inapplicableAction _ => none
  | .found op =>
    if (state.nodes current).isDeadEnd || search.exceedsBound (state.nodes current) op then none
    else some op

/-- One step of the injection.  A chain ends where an action cannot be applied or leads into a dead
end; after the last chain a source that had been suspended is resumed. -/
def injectChains (injection : Injection S) (responses : List (LlmResponse S)) (site : PollSite)
    (state : SearchState S O M Q) : SearchState S O M Q :=
  match injection.actions with
  | action :: actions =>
    match search.selectOperator state injection.currentState action with
    | none => { state with control := .injectChains { injection with actions := [] } responses site }
    | some op =>
      let successor := search.task.getSuccessorState injection.currentState op
      let generated := search.generateSuccessor false injection.currentState op state
      if (generated.nodes successor).isDeadEnd then
        { generated with
          control := .injectChains { injection with actions := [] } responses site }
      else
        { generated with
          control := .injectChains
            { injection with currentState := successor, actions := actions } responses site }
  | [] =>
    match injection.chains with
    | chain :: chains =>
      { state with
        control := .injectChains
          { injection with currentState := injection.sourceId, actions := chain, chains := chains }
          responses site }
    | [] =>
      let resumed :=
        if injection.sourceWasSuspended then search.requeueLlmSource injection.sourceId state
        else state
      { resumed with control := .processResponses responses site }

/-! ## Polling -/

def processResponses (responses : List (LlmResponse S)) (site : PollSite)
    (state : SearchState S O M Q) : SearchState S O M Q :=
  match responses with
  | response :: responses =>
    { state with
      monitor := state.monitor.takeSuspended response.stateId
      control := .injectChains
        { sourceId := response.stateId
          sourceWasSuspended := response.stateId ∈ state.monitor.suspendedStates
          currentState := response.stateId
          actions := []
          chains := response.chainsToInject search.parseLlmResponseBody }
        responses site }
  | [] =>
    match site with
    | .loopHead => { state with control := .fetchNextNode }
    | .endOfStep => { state with control := .pollBridge .loopHead }

def pollBridge (input : SearchInput S) (site : PollSite) (state : SearchState S O M Q) :
    SearchState S O M Q :=
  let (responses, monitor) := state.monitor.pollBridge input.completed
  { state with monitor := monitor, control := .processResponses responses site }

/-! ## Initialization -/

def initializeSearch (input : SearchInput S) (state : SearchState S O M Q) : SearchState S O M Q :=
  let initialState := search.task.initialState
  let context : EvaluationContext S := { state := initialState, g := 0, isPreferred := true }
  if search.openList.isDeadEnd state.memory initialState then
    { state with control := .pollBridge .loopHead }
  else
    let rewarded :=
      { state with
        progress :=
          (state.progress.checkProgress (search.heuristics.cachedValues state.memory context)).1 }
    let opened :=
      search.insertEntry context <|
        setNode initialState (state.nodes initialState).openInitial rewarded
    { opened with
      monitor := opened.monitor.requestStates search.llmTriggerMonitor {initialState} input.requests
      control := .pollBridge .loopHead }

/-! ## Fetching and expanding nodes -/

/-- The verdict on an entry that was removed from the open list. -/
inductive FetchResult where
  | discard
  | suspend
  | deadEnd
  | reinsert
  | close
  deriving DecidableEq, Repr

/-- The checks of `fetch_next_node` on the removed entry, in the order of the source. -/
def fetchResult (state : SearchState S O M Q) (id : S) (removedKey : Key) : FetchResult :=
  let node := state.nodes id
  if search.task.violatesGlobalConstraint id then .discard
  else if node.isClosed then .discard
  else if state.monitor.suspends search.llmTriggerMonitor id then .suspend
  else if search.useMultiPathDependence then
    if node.isDeadEnd then .discard
    else if search.openList.isDeadEnd state.memory id then .deadEnd
    else if removedKey.getD 1 ⊤ < search.heuristics.primaryValue state.memory id then .reinsert
    else .close
  else .close

def closeNode (input : SearchInput S) (id : S) (state : SearchState S O M Q) :
    SearchState S O M Q :=
  let closed := (state.nodes id).close
  let recorded := state.monitor.recordExpanded search.llmTriggerMonitor id
  { setNode id closed state with
    monitor := recorded.requestStates search.llmTriggerMonitor recorded.recorded input.requests
    closings := state.closings ++ [(id, closed)]
    control := .checkGoal id }

/-- The loop body after the poll. -/
def fetchNextNode (input : SearchInput S) (state : SearchState S O M Q) : SearchState S O M Q :=
  if search.openList.isEmpty state.openList then
    if state.monitor.hasPendingRequests then { state with control := .pollBridge .loopHead }
    else { state with control := .finished .failed none [] }
  else
    match search.openList.removeMin state.openList with
    | none => state
    | some (id, removedKey, rest) =>
      let removed := { state with openList := rest, control := .pollBridge .loopHead }
      match search.fetchResult state id removedKey with
      | .discard => removed
      | .suspend => { removed with monitor := removed.monitor.suspend id }
      | .deadEnd => setNode id (state.nodes id).markAsDeadEnd removed
      | .reinsert =>
        search.insertEntry { state := id, g := (state.nodes id).g, isPreferred := false } removed
      | .close => search.closeNode input id removed

/-- `check_goal_and_set_plan`, up to the call of `trace_path`, and the preparation of the expansion
of a state that is not a goal. -/
def checkGoal (id : S) (state : SearchState S O M Q) : SearchState S O M Q :=
  if search.task.testGoal id then { state with control := .tracePath id id [] }
  else
    let context : EvaluationContext S :=
      { state := id, g := (state.nodes id).g, isPreferred := false }
    { state with
      control := .expand id (search.heuristics.preferredOperators state.memory context)
        (search.pruneOperators id (search.generateApplicableOps id)) }

def expand (id : S) (preferredOps ops : List O) (state : SearchState S O M Q) :
    SearchState S O M Q :=
  match ops with
  | [] => { state with control := .pollBridge .endOfStep }
  | op :: ops =>
    let generated :=
      if search.exceedsBound (state.nodes id) op then state
      else search.generateSuccessor (op ∈ preferredOps) id op state
    { generated with control := .expand id preferredOps ops }

/-- One link of `trace_path`.  At the root the plan is set, and `step` polls the bridge once more
without using the responses. -/
def tracePath (input : SearchInput S) (goalState current : S) (path : List O)
    (state : SearchState S O M Q) : SearchState S O M Q :=
  match (state.nodes current).creatingOperator with
  | none =>
    let (responses, monitor) := state.monitor.pollBridge input.completed
    { state with monitor := monitor, control := .finished .solved (some path) responses }
  | some op =>
    match (state.nodes current).parentStateId with
    | none => state
    | some parent => { state with control := .tracePath goalState parent (op :: path) }

/-! ## The machine -/

def start : SearchState S O M Q :=
  { nodes := fun _ => .unseen
    openList := search.openList.initial
    memory := search.heuristics.initialMemory
    progress := fun _ => none
    monitor := .start
    closings := []
    control := .beforeSearch }

def next (state : SearchState S O M Q) (input : SearchInput S) : SearchState S O M Q :=
  match state.control with
  | .beforeSearch => search.initializeSearch input state
  | .pollBridge site => pollBridge input site state
  | .processResponses responses site => search.processResponses responses site state
  | .injectChains injection responses site => search.injectChains injection responses site state
  | .fetchNextNode => search.fetchNextNode input state
  | .checkGoal id => search.checkGoal id state
  | .expand id preferredOps ops => search.expand id preferredOps ops state
  | .tracePath goalState current path => tracePath input goalState current path state
  | .finished _ _ _ => state

def machine : Machine (SearchState S O M Q) (SearchInput S) where
  start := search.start
  next := search.next

end EagerSearch

end CutPlan.Search
