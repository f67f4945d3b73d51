import CutPlan.Search.EagerSearch

set_option linter.unusedSectionVars false

/-! # The steps of the search

`Step` lists, once and for all, what a single step of the machine can do.  The invariants of the
search are proved by cases on it; none of them unfolds `next` again.
-/

namespace CutPlan.Search

open CutPlan.Lib

namespace EagerSearch

variable {S O M Q : Type} [DecidableEq S] [DecidableEq O] (search : EagerSearch S O M Q)

/-! ## Fields left alone -/

section Frame

variable (state : SearchState S O M Q) (context : EvaluationContext S) (id parent : S)
  (info : SearchNodeInfo S O) (op : O) (isPreferred : Bool)

@[simp] theorem insertEntry_nodes : (search.insertEntry context state).nodes = state.nodes := rfl
@[simp] theorem insertEntry_memory : (search.insertEntry context state).memory = state.memory := rfl
@[simp] theorem insertEntry_monitor : (search.insertEntry context state).monitor = state.monitor :=
  rfl
@[simp] theorem insertEntry_control : (search.insertEntry context state).control = state.control :=
  rfl

@[simp] theorem rewardProgress_nodes : (search.rewardProgress context state).nodes = state.nodes :=
  rfl
@[simp] theorem rewardProgress_memory :
    (search.rewardProgress context state).memory = state.memory := rfl
@[simp] theorem rewardProgress_monitor :
    (search.rewardProgress context state).monitor = state.monitor := rfl
@[simp] theorem rewardProgress_control :
    (search.rewardProgress context state).control = state.control := rfl

@[simp] theorem rewardProgress_entries :
    search.openList.entries (search.rewardProgress context state).openList =
      search.openList.entries state.openList := by
  unfold rewardProgress
  simp only
  split
  · exact search.openList.boostPreferred_entries _
  · rfl

@[simp] theorem setNode_nodes : (setNode id info state).nodes = Function.update state.nodes id info :=
  rfl
@[simp] theorem setNode_openList : (setNode id info state).openList = state.openList := rfl
@[simp] theorem setNode_memory : (setNode id info state).memory = state.memory := rfl
@[simp] theorem setNode_monitor : (setNode id info state).monitor = state.monitor := rfl
@[simp] theorem setNode_control : (setNode id info state).control = state.control := rfl

@[simp] theorem reachState_nodes : (search.reachState parent op state).nodes = state.nodes := rfl
@[simp] theorem reachState_memory :
    (search.reachState parent op state).memory =
      search.heuristics.reachState state.memory parent op
        (search.task.getSuccessorState parent op) := rfl
@[simp] theorem reachState_openList : (search.reachState parent op state).openList = state.openList :=
  rfl
@[simp] theorem reachState_monitor : (search.reachState parent op state).monitor = state.monitor :=
  rfl
@[simp] theorem reachState_control : (search.reachState parent op state).control = state.control :=
  rfl

end Frame

/-! ## Applying an operator -/

/-- The memory with which the successor generation evaluates the successor. -/
def reachedMemory (state : SearchState S O M Q) (parent : S) (op : O) : M :=
  if search.useMultiPathDependence ||
      (state.nodes (search.task.getSuccessorState parent op)).isNew then
    search.heuristics.reachState state.memory parent op (search.task.getSuccessorState parent op)
  else state.memory

/-- The successor is new and not recognised as a dead end. -/
def OpensSuccessor (state : SearchState S O M Q) (parent : S) (op : O) : Prop :=
  let successor := search.task.getSuccessorState parent op
  (state.nodes successor).status = .new ∧
    search.openList.isDeadEnd (search.reachedMemory state parent op) successor = false

/-- The successor is open or closed and the new path to it is cheaper. -/
def RewiresSuccessor (state : SearchState S O M Q) (parent : S) (op : O) : Prop :=
  let successor := search.task.getSuccessorState parent op
  ((state.nodes successor).status = .opened ∨ (state.nodes successor).status = .closed) ∧
    ((state.nodes parent).g : ℚ) + search.task.getAdjustedActionCost search.costType op <
      (state.nodes successor).g

/-- Applying the operator gives the successor a new parent pointer. -/
def Links (state : SearchState S O M Q) (parent : S) (op : O) : Prop :=
  search.OpensSuccessor state parent op ∨ search.RewiresSuccessor state parent op

/-- The record of a successor below its new parent. -/
def linkedInfo (state : SearchState S O M Q) (parent : S) (op : O) (status : NodeStatus) :
    SearchNodeInfo S O where
  status := status
  g := SearchNodeInfo.childG search.task search.costType (state.nodes parent) op
  parentStateId := some parent
  creatingOperator := some op
  realG := SearchNodeInfo.childRealG search.task (state.nodes parent) op

/-- The state in which the branches of the successor generation run. -/
def withReachedMemory (state : SearchState S O M Q) (parent : S) (op : O) : SearchState S O M Q :=
  { state with memory := search.reachedMemory state parent op }

@[simp] theorem withReachedMemory_nodes (state : SearchState S O M Q) (parent : S) (op : O) :
    (search.withReachedMemory state parent op).nodes = state.nodes := rfl
@[simp] theorem withReachedMemory_openList (state : SearchState S O M Q) (parent : S) (op : O) :
    (search.withReachedMemory state parent op).openList = state.openList := rfl
@[simp] theorem withReachedMemory_memory (state : SearchState S O M Q) (parent : S) (op : O) :
    (search.withReachedMemory state parent op).memory = search.reachedMemory state parent op := rfl

/-- The evaluation context in which a new successor is inserted. -/
def newContext (isPreferred : Bool) (state : SearchState S O M Q) (parent : S) (op : O) :
    EvaluationContext S where
  state := search.task.getSuccessorState parent op
  g := (state.nodes parent).g + search.task.getAdjustedActionCost search.costType op
  isPreferred := isPreferred

/-- The evaluation context in which a reopened successor is inserted. -/
def reopenContext (isPreferred : Bool) (state : SearchState S O M Q) (parent : S) (op : O) :
    EvaluationContext S where
  state := search.task.getSuccessorState parent op
  g := SearchNodeInfo.childG search.task search.costType (state.nodes parent) op
  isPreferred := isPreferred

/-- Everything the successor generation can do. -/
inductive SuccessorOutcome (isPreferred : Bool) (state : SearchState S O M Q) (parent : S) (op : O) :
    SearchState S O M Q → Prop where
  | knownDeadEnd : (state.nodes (search.task.getSuccessorState parent op)).status = .deadEnd →
      SuccessorOutcome isPreferred state parent op state
  | notCheaper : (state.nodes (search.task.getSuccessorState parent op)).status = .opened ∨
        (state.nodes (search.task.getSuccessorState parent op)).status = .closed →
      SuccessorOutcome isPreferred state parent op (search.withReachedMemory state parent op)
  | newDeadEnd : (state.nodes (search.task.getSuccessorState parent op)).status = .new →
      SuccessorOutcome isPreferred state parent op
        (setNode (search.task.getSuccessorState parent op)
          (state.nodes (search.task.getSuccessorState parent op)).markAsDeadEnd
          (search.withReachedMemory state parent op))
  | opened : search.OpensSuccessor state parent op →
      SuccessorOutcome isPreferred state parent op
        (search.rewardProgress (search.newContext isPreferred state parent op)
          (search.insertEntry (search.newContext isPreferred state parent op)
            (setNode (search.task.getSuccessorState parent op)
              (search.linkedInfo state parent op .opened)
              (search.withReachedMemory state parent op))))
  | reopened : search.RewiresSuccessor state parent op → search.reopenClosedNodes = true →
      SuccessorOutcome isPreferred state parent op
        (search.insertEntry (search.reopenContext isPreferred state parent op)
          (setNode (search.task.getSuccessorState parent op)
            (search.linkedInfo state parent op .opened)
            (search.withReachedMemory state parent op)))
  | parentUpdated : search.RewiresSuccessor state parent op → search.reopenClosedNodes = false →
      SuccessorOutcome isPreferred state parent op
        (setNode (search.task.getSuccessorState parent op)
          (search.linkedInfo state parent op
            (state.nodes (search.task.getSuccessorState parent op)).status)
          (search.withReachedMemory state parent op))

theorem reached_eq (state : SearchState S O M Q) (parent : S) (op : O) :
    (if search.useMultiPathDependence ||
        (state.nodes (search.task.getSuccessorState parent op)).isNew then
      search.reachState parent op state else state) = search.withReachedMemory state parent op := by
  unfold withReachedMemory reachedMemory
  split <;> rfl

theorem generateSuccessor_outcome (isPreferred : Bool) (state : SearchState S O M Q) (parent : S)
    (op : O) :
    search.SuccessorOutcome isPreferred state parent op
      (search.generateSuccessor isPreferred parent op state) := by
  unfold generateSuccessor
  simp only [search.reached_eq]
  cases statusDef : (state.nodes (search.task.getSuccessorState parent op)).status with
  | deadEnd =>
    simp only [SearchNodeInfo.isDeadEnd, statusDef, decide_true, if_true]
    exact .knownDeadEnd statusDef
  | new =>
    simp only [SearchNodeInfo.isDeadEnd, SearchNodeInfo.isNew, statusDef, decide_true, if_true,
      reduceCtorEq, decide_false, Bool.false_eq_true, if_false]
    unfold openSuccessor
    simp only
    split
    next => exact .newDeadEnd statusDef
    next undetected => exact .opened ⟨statusDef, by simpa [withReachedMemory] using undetected⟩
  | opened | closed =>
    simp only [SearchNodeInfo.isDeadEnd, SearchNodeInfo.isNew, statusDef, reduceCtorEq,
      decide_false, Bool.false_eq_true, if_false]
    split
    next cheaper =>
      have rewires : search.RewiresSuccessor state parent op := ⟨by simp [statusDef], cheaper⟩
      unfold rewireSuccessor
      simp only
      split
      next reopens => exact .reopened rewires reopens
      next keeps => exact .parentUpdated rewires (by simpa using keeps)
    next => exact .notCheaper (by simp [statusDef])

variable {search} in
theorem SuccessorOutcome.monitor {isPreferred : Bool} {state after : SearchState S O M Q}
    {parent : S} {op : O} (outcome : search.SuccessorOutcome isPreferred state parent op after) :
    after.monitor = state.monitor := by
  cases outcome <;> rfl

/-! ## The successor of a step -/

/-- Every transition of the machine, with what the source tests before it. -/
inductive Step (input : SearchInput S) (state : SearchState S O M Q) :
    SearchState S O M Q → Prop where
  | initialDeadEnd : state.control = .beforeSearch →
      search.openList.isDeadEnd state.memory search.task.initialState = true →
      Step input state { state with control := .pollBridge .loopHead }
  | initialOpened (progress : SearchProgress) : state.control = .beforeSearch →
      search.openList.isDeadEnd state.memory search.task.initialState = false →
      Step input state
        { state with
          nodes := Function.update state.nodes search.task.initialState
            (state.nodes search.task.initialState).openInitial
          openList := search.openList.insert state.memory
            { state := search.task.initialState, g := 0, isPreferred := true } state.openList
          progress := progress
          monitor := state.monitor.requestStates search.llmTriggerMonitor
            {search.task.initialState} input.requests
          control := .pollBridge .loopHead }
  | polled (site : PollSite) : state.control = .pollBridge site →
      Step input state
        { state with
          monitor := (state.monitor.pollBridge input.completed).2
          control := .processResponses (state.monitor.pollBridge input.completed).1 site }
  | responseTaken (response : LlmResponse S) (responses : List (LlmResponse S)) (site : PollSite) :
      state.control = .processResponses (response :: responses) site →
      Step input state
        { state with
          monitor := state.monitor.takeSuspended response.stateId
          control := .injectChains
            { sourceId := response.stateId
              sourceWasSuspended := response.stateId ∈ state.monitor.suspendedStates
              currentState := response.stateId
              actions := []
              chains := response.chainsToInject search.parseLlmResponseBody }
            responses site }
  | loopHeadPollEnds : state.control = .processResponses [] .loopHead →
      Step input state { state with control := .fetchNextNode }
  | endOfStepPollEnds : state.control = .processResponses [] .endOfStep →
      Step input state { state with control := .pollBridge .loopHead }
  | chainStarts (injection : Injection S) (responses : List (LlmResponse S)) (site : PollSite)
      (chain : List String) (chains : List (List String)) :
      state.control = .injectChains injection responses site → injection.actions = [] →
      injection.chains = chain :: chains →
      Step input state
        { state with
          control := .injectChains
            { injection with
              currentState := injection.sourceId, actions := chain, chains := chains }
            responses site }
  | actionBlocked (injection : Injection S) (responses : List (LlmResponse S)) (site : PollSite)
      (action : String) (actions : List String) :
      state.control = .injectChains injection responses site →
      injection.actions = action :: actions →
      search.selectOperator state injection.currentState action = none →
      Step input state
        { state with control := .injectChains { injection with actions := [] } responses site }
  | actionIntoDeadEnd (injection : Injection S) (responses : List (LlmResponse S)) (site : PollSite)
      (action : String) (actions : List String) (op : O) (generated : SearchState S O M Q) :
      state.control = .injectChains injection responses site →
      injection.actions = action :: actions →
      search.selectOperator state injection.currentState action = some op →
      search.SuccessorOutcome false state injection.currentState op generated →
      (generated.nodes (search.task.getSuccessorState injection.currentState op)).isDeadEnd = true →
      Step input state
        { generated with control := .injectChains { injection with actions := [] } responses site }
  | actionApplied (injection : Injection S) (responses : List (LlmResponse S)) (site : PollSite)
      (action : String) (actions : List String) (op : O) (generated : SearchState S O M Q) :
      state.control = .injectChains injection responses site →
      injection.actions = action :: actions →
      search.selectOperator state injection.currentState action = some op →
      search.SuccessorOutcome false state injection.currentState op generated →
      (generated.nodes (search.task.getSuccessorState injection.currentState op)).isDeadEnd =
        false →
      Step input state
        { generated with
          control := .injectChains
            { injection with
              currentState := search.task.getSuccessorState injection.currentState op
              actions := actions }
            responses site }
  | injectionEnds (injection : Injection S) (responses : List (LlmResponse S)) (site : PollSite) :
      state.control = .injectChains injection responses site →
      (injection.sourceWasSuspended = true → search.llmTriggerMonitor.skipPending = true →
        (state.nodes injection.sourceId).status ≠ .opened) →
      Step input state { state with control := .processResponses responses site }
  | sourceDeadEnd (injection : Injection S) (responses : List (LlmResponse S)) (site : PollSite) :
      state.control = .injectChains injection responses site →
      (state.nodes injection.sourceId).status = .opened →
      search.openList.isDeadEnd state.memory injection.sourceId = true →
      search.llmTriggerMonitor.skipPending = true →
      Step input state
        { state with
          nodes := Function.update state.nodes injection.sourceId
            (state.nodes injection.sourceId).markAsDeadEnd
          control := .processResponses responses site }
  | sourceRequeued (injection : Injection S) (responses : List (LlmResponse S)) (site : PollSite) :
      state.control = .injectChains injection responses site →
      (state.nodes injection.sourceId).status = .opened →
      search.openList.isDeadEnd state.memory injection.sourceId = false →
      search.llmTriggerMonitor.skipPending = true →
      Step input state
        { state with
          openList := search.openList.insert state.memory
            { state := injection.sourceId, g := (state.nodes injection.sourceId).g,
              isPreferred := false } state.openList
          control := .processResponses responses site }
  | waits : state.control = .fetchNextNode → search.openList.isEmpty state.openList = true →
      state.monitor.hasPendingRequests = true →
      Step input state { state with control := .pollBridge .loopHead }
  | fails : state.control = .fetchNextNode → search.openList.isEmpty state.openList = true →
      state.monitor.hasPendingRequests = false →
      Step input state { state with control := .finished .failed none [] }
  | discarded (id : S) (key : Key) (rest : Q) : state.control = .fetchNextNode →
      search.openList.removeMin state.openList = some (id, key, rest) →
      search.fetchResult state id key = .discard →
      Step input state { state with openList := rest, control := .pollBridge .loopHead }
  | suspended (id : S) (key : Key) (rest : Q) : state.control = .fetchNextNode →
      search.openList.removeMin state.openList = some (id, key, rest) →
      search.fetchResult state id key = .suspend →
      Step input state
        { state with
          openList := rest
          monitor := state.monitor.suspend id
          control := .pollBridge .loopHead }
  | entryDeadEnd (id : S) (key : Key) (rest : Q) : state.control = .fetchNextNode →
      search.openList.removeMin state.openList = some (id, key, rest) →
      search.fetchResult state id key = .deadEnd →
      Step input state
        { state with
          nodes := Function.update state.nodes id (state.nodes id).markAsDeadEnd
          openList := rest
          control := .pollBridge .loopHead }
  | reinserted (id : S) (key : Key) (rest : Q) : state.control = .fetchNextNode →
      search.openList.removeMin state.openList = some (id, key, rest) →
      search.fetchResult state id key = .reinsert →
      Step input state
        { state with
          openList := search.openList.insert state.memory
            { state := id, g := (state.nodes id).g, isPreferred := false } rest
          control := .pollBridge .loopHead }
  | closed (id : S) (key : Key) (rest : Q) : state.control = .fetchNextNode →
      search.openList.removeMin state.openList = some (id, key, rest) →
      search.fetchResult state id key = .close →
      Step input state
        { state with
          nodes := Function.update state.nodes id (state.nodes id).close
          openList := rest
          monitor := (state.monitor.recordExpanded search.llmTriggerMonitor id).requestStates
            search.llmTriggerMonitor
            (state.monitor.recordExpanded search.llmTriggerMonitor id).recorded input.requests
          closings := state.closings ++ [(id, (state.nodes id).close)]
          control := .checkGoal id }
  | goalFound (id : S) : state.control = .checkGoal id → search.task.testGoal id = true →
      Step input state { state with control := .tracePath id id [] }
  | expansionStarts (id : S) (preferredOps : List O) : state.control = .checkGoal id →
      search.task.testGoal id = false →
      Step input state
        { state with
          control := .expand id preferredOps
            (search.pruneOperators id (search.generateApplicableOps id)) }
  | operatorRejected (id : S) (preferredOps : List O) (op : O) (ops : List O) :
      state.control = .expand id preferredOps (op :: ops) →
      search.exceedsBound (state.nodes id) op = true →
      Step input state { state with control := .expand id preferredOps ops }
  | operatorApplied (id : S) (preferredOps : List O) (op : O) (ops : List O)
      (generated : SearchState S O M Q) :
      state.control = .expand id preferredOps (op :: ops) →
      search.exceedsBound (state.nodes id) op = false →
      search.SuccessorOutcome (op ∈ preferredOps) state id op generated →
      Step input state { generated with control := .expand id preferredOps ops }
  | expansionEnds (id : S) (preferredOps : List O) : state.control = .expand id preferredOps [] →
      Step input state { state with control := .pollBridge .endOfStep }
  | planFound (goalState current : S) (path : List O) :
      state.control = .tracePath goalState current path →
      (state.nodes current).creatingOperator = none →
      Step input state
        { state with
          monitor := (state.monitor.pollBridge input.completed).2
          control := .finished .solved (some path) (state.monitor.pollBridge input.completed).1 }
  | pointerFollowed (goalState current : S) (path : List O) (op : O) (parent : S) :
      state.control = .tracePath goalState current path →
      (state.nodes current).creatingOperator = some op →
      (state.nodes current).parentStateId = some parent →
      Step input state { state with control := .tracePath goalState parent (op :: path) }
  | pointerMissing (goalState current : S) (path : List O) (op : O) :
      state.control = .tracePath goalState current path →
      (state.nodes current).creatingOperator = some op →
      (state.nodes current).parentStateId = none → Step input state state
  | halted (status : SearchStatus) (plan : Option (List O)) (lastPoll : List (LlmResponse S)) :
      state.control = .finished status plan lastPoll → Step input state state

theorem injectChains_step (input : SearchInput S) {state : SearchState S O M Q}
    {injection : Injection S} {responses : List (LlmResponse S)} {site : PollSite}
    (control : state.control = .injectChains injection responses site) :
    search.Step input state (search.injectChains injection responses site state) := by
  unfold injectChains
  cases actionsDef : injection.actions with
  | nil =>
    cases chainsDef : injection.chains with
    | nil =>
      simp only
      by_cases resumes : injection.sourceWasSuspended = true ∧
          search.llmTriggerMonitor.skipPending = true ∧
          (state.nodes injection.sourceId).status = .opened
      · obtain ⟨suspended, skips, isOpen⟩ := resumes
        simp only [suspended, if_true, requeueLlmSource, skips, Bool.not_true, Bool.false_eq_true,
          if_false, SearchNodeInfo.isOpen, SearchNodeInfo.isDeadEnd, isOpen, decide_true,
          reduceCtorEq, decide_false, Bool.or_self]
        split
        next dead => exact .sourceDeadEnd injection responses site control isOpen dead skips
        next alive =>
          exact .sourceRequeued injection responses site control isOpen (by simpa using alive) skips
      · have unchanged : (if injection.sourceWasSuspended = true then
            search.requeueLlmSource injection.sourceId state else state) = state := by
          split
          next suspended =>
            unfold requeueLlmSource
            simp only
            split
            · rfl
            next skips =>
              have notOpen : (state.nodes injection.sourceId).isOpen = false := by
                simp only [SearchNodeInfo.isOpen, decide_eq_false_iff_not]
                intro isOpen
                exact resumes ⟨suspended, by simpa using skips, isOpen⟩
              simp [notOpen]
          next => rfl
        rw [unchanged]
        refine .injectionEnds injection responses site control ?_
        intro suspended skips isOpen
        exact resumes ⟨suspended, skips, isOpen⟩
    | cons chain chains =>
      exact .chainStarts injection responses site chain chains control actionsDef chainsDef
  | cons action actions =>
    simp only
    cases selected : search.selectOperator state injection.currentState action with
    | none =>
      exact .actionBlocked injection responses site action actions control actionsDef selected
    | some op =>
      have outcome := search.generateSuccessor_outcome false state injection.currentState op
      simp only
      split
      next dead =>
        exact .actionIntoDeadEnd injection responses site action actions op _ control actionsDef
          selected outcome dead
      next alive =>
        exact .actionApplied injection responses site action actions op _ control actionsDef
          selected outcome (by simpa using alive)

theorem fetchNextNode_step {state : SearchState S O M Q} (input : SearchInput S)
    (control : state.control = .fetchNextNode) :
    search.Step input state (search.fetchNextNode input state) := by
  unfold fetchNextNode
  split
  next isEmpty =>
    split
    next pending => exact .waits control isEmpty pending
    next settled => exact .fails control isEmpty (by simpa using settled)
  next occupied =>
    obtain ⟨⟨id, key, rest⟩, removed⟩ := Option.isSome_iff_exists.mp
      (search.openList.removeMin_isSome state.openList (by simpa using occupied))
    simp only [removed]
    cases verdict : search.fetchResult state id key with
    | discard => exact .discarded id key rest control removed verdict
    | suspend => exact .suspended id key rest control removed verdict
    | deadEnd => exact .entryDeadEnd id key rest control removed verdict
    | reinsert => exact .reinserted id key rest control removed verdict
    | close => exact .closed id key rest control removed verdict

theorem next_step (state : SearchState S O M Q) (input : SearchInput S) :
    search.Step input state (search.next state input) := by
  cases control : state.control with
  | beforeSearch =>
    simp only [next, control, initializeSearch]
    split
    next dead => exact .initialDeadEnd control dead
    next alive => exact .initialOpened _ control (by simpa using alive)
  | pollBridge site =>
    simp only [next, control]
    exact .polled site control
  | processResponses responses site =>
    simp only [next, control, processResponses]
    cases responses with
    | nil =>
      cases site with
      | loopHead => exact .loopHeadPollEnds control
      | endOfStep => exact .endOfStepPollEnds control
    | cons response responses => exact .responseTaken response responses site control
  | injectChains injection responses site =>
    simp only [next, control]
    exact search.injectChains_step input control
  | fetchNextNode =>
    simp only [next, control]
    exact search.fetchNextNode_step input control
  | checkGoal id =>
    simp only [next, control, checkGoal]
    split
    next goal => exact .goalFound id control goal
    next notGoal => exact .expansionStarts id _ control (by simpa using notGoal)
  | expand id preferredOps ops =>
    simp only [next, control, expand]
    cases ops with
    | nil => exact .expansionEnds id preferredOps control
    | cons op ops =>
      simp only
      split
      next rejected => exact .operatorRejected id preferredOps op ops control rejected
      next within =>
        exact .operatorApplied id preferredOps op ops _ control (by simpa using within)
          (search.generateSuccessor_outcome _ state id op)
  | tracePath goalState current path =>
    simp only [next, control, tracePath]
    cases created : (state.nodes current).creatingOperator with
    | none => exact .planFound goalState current path control created
    | some op =>
      cases pointer : (state.nodes current).parentStateId with
      | none => exact .pointerMissing goalState current path op control created pointer
      | some parent =>
        exact .pointerFollowed goalState current path op parent control created pointer
  | finished status plan lastPoll =>
    simp only [next, control]
    exact .halted status plan lastPoll control

/-! ## The verdict on an entry -/

theorem fetchResult_deadEnd {state : SearchState S O M Q} {id : S} {key : Key}
    (verdict : search.fetchResult state id key = .deadEnd) :
    search.useMultiPathDependence = true := by
  by_contra single
  have result : search.fetchResult state id key = .discard ∨
      search.fetchResult state id key = .suspend ∨ search.fetchResult state id key = .close := by
    unfold fetchResult
    simp only [single, if_false]
    split_ifs <;> simp
  rw [verdict] at result
  simp at result

/-- A closed entry satisfies the global constraint and was not closed before. -/
theorem fetchResult_close {state : SearchState S O M Q} {id : S} {key : Key}
    (verdict : search.fetchResult state id key = .close) :
    search.task.violatesGlobalConstraint id = false ∧ (state.nodes id).status ≠ .closed := by
  unfold fetchResult at verdict
  simp only at verdict
  split at verdict
  · cases verdict
  next satisfied =>
    split at verdict
    · cases verdict
    next notClosed =>
      refine ⟨by simpa using satisfied, ?_⟩
      simpa [SearchNodeInfo.isClosed] using notClosed

end EagerSearch

end CutPlan.Search
