import CutPlan.Controller.ModelResponse

/-! # Legal prefixes

What `PlanResponseProcessor` returns is to be the longest prefix of the calls that can be executed, up
to the first state that satisfies the goal.  The planning library may raise errors on the way.
-/

namespace CutPlan.Controller

/-- What a call of the library can raise. -/
inductive PythonError where
  | valueError (text : String)
  | typeError (text : String)
  | other (text : String)
  deriving DecidableEq, Repr

def PythonError.text : PythonError → String
  | .valueError text | .typeError text | .other text => text

/-- The library for a parsed problem.  A call with the action and its parameters may want an action
instance instead. -/
structure UnifiedPlanning (State : Type) where
  initialState : State
  isGoal : State → Bool
  action : String → Except PythonError Unit
  object : String → Except PythonError Unit
  isApplicable : State → String → List String → Except PythonError Bool
  isApplicableInstance : State → String → List String → Except PythonError Bool
  apply : State → String → List String → Except PythonError State
  applyInstance : State → String → List String → Except PythonError State

/-- The second attempt is made after a `TypeError`. -/
def orInstance {Answer : Type} (first second : Except PythonError Answer) :
    Except PythonError Answer :=
  match first with
  | .error (.typeError _) => second
  | answer => answer

namespace UnifiedPlanning

variable {State : Type} (library : UnifiedPlanning State)

def lookup (action : ActionCall) : Except PythonError Unit := do
  library.action action.pddlName
  action.parameters.forM library.object

def applicable (state : State) (action : ActionCall) : Except PythonError Bool :=
  orInstance (library.isApplicable state action.pddlName action.parameters)
    (library.isApplicableInstance state action.pddlName action.parameters)

def successor (state : State) (action : ActionCall) : Except PythonError State :=
  orInstance (library.apply state action.pddlName action.parameters)
    (library.applyInstance state action.pddlName action.parameters)

/-- The loop over the actions; the index of the next one is the number of legal ones before it. -/
def simulate (total : ℕ) : State → Bool → List ActionCall → List ActionCall →
    Except PythonError PrefixValidationResult
  | _, goalReached, legalActions, [] => .ok ⟨legalActions, total, none, none, some goalReached⟩
  | currentState, goalReached, legalActions, action :: actions =>
    if goalReached then .ok ⟨legalActions, total, none, none, some goalReached⟩
    else
      match library.lookup action with
      | .error (.valueError text) =>
        .ok ⟨legalActions, total, some legalActions.length, some ("unknown action or object: " ++ text),
          some goalReached⟩
      | .error error => .error error
      | .ok () => do
        if ← library.applicable currentState action then
          let successor ← library.successor currentState action
          simulate total successor (library.isGoal successor) (legalActions ++ [action]) actions
        else
          return ⟨legalActions, total, some legalActions.length,
            some ("action is not applicable: " ++ action.asPddl), some goalReached⟩

def validate (actions : List ActionCall) : Except String PrefixValidationResult :=
  (library.simulate actions.length library.initialState (library.isGoal library.initialState) []
    actions).mapError fun error => "simulation failed: " ++ error.text

end UnifiedPlanning

/-- The response for the outcome of a validation. -/
def respond (actionCalls : List ActionCall) :
    Except String PrefixValidationResult → ProcessedModelResponse
  | .error text => ⟨.validationError, [], actionCalls.length, 0, none, some text, none⟩
  | .ok validation =>
    let legalPddl := validation.legalActions.map ActionCall.asPddl
    let status :=
      if legalPddl = [] then .invalidPlan
      else if validation.goalReached = some true then .ok
      else if legalPddl.length < actionCalls.length then .partialPlan
      else .ok
    ⟨status, legalPddl, actionCalls.length, legalPddl.length, validation.invalidActionIndex,
      validation.error, validation.goalReached⟩

theorem processResponse_eq_respond {State : Type} (actionCalls : List ActionCall)
    (simulator : Simulator State) :
    processResponse (.ok actionCalls) (.ok simulator) =
      respond actionCalls (simulator.validate actionCalls) := rfl

namespace UnifiedPlanning

variable {State : Type} (library : UnifiedPlanning State)

/-- The library as a simulator, when the kinds of its errors do not matter. -/
def simulator : Simulator State where
  initialState := library.initialState
  isGoal := some library.isGoal
  action := fun name => (library.action name).mapError PythonError.text
  object := fun name => (library.object name).mapError PythonError.text
  isApplicable := fun state name parameters =>
    (orInstance (library.isApplicable state name parameters)
      (library.isApplicableInstance state name parameters)).mapError PythonError.text
  apply := fun state name parameters =>
    (orInstance (library.apply state name parameters)
      (library.applyInstance state name parameters)).mapError PythonError.text

/-- Names that are not known raise a `ValueError`. -/
def RaisesValueErrors : Prop :=
  ∀ action error, library.lookup action = .error error → ∃ text, error = .valueError text

theorem simulator_lookup (action : ActionCall) :
    library.simulator.lookup action = (library.lookup action).mapError PythonError.text := by
  have objects : ∀ names : List String, names.forM library.simulator.object =
      (names.forM library.object).mapError PythonError.text := by
    intro names
    induction names with
    | nil => rfl
    | cons name names inductionHypothesis =>
      change ((library.object name).mapError PythonError.text >>=
        fun _ => names.forM library.simulator.object) =
          (library.object name >>= fun _ => names.forM library.object).mapError PythonError.text
      rw [inductionHypothesis]
      cases library.object name <;> rfl
  unfold Simulator.lookup lookup
  rw [objects]
  change ((library.action action.pddlName).mapError PythonError.text >>= _) = _
  cases library.action action.pddlName <;> rfl

theorem simulate_simulator (raises : library.RaisesValueErrors) (total : ℕ)
    (actions : List ActionCall) : ∀ (state : State) (goalReached : Bool) (legal : List ActionCall),
    library.simulator.simulate total state (some goalReached) legal actions =
      (library.simulate total state goalReached legal actions).mapError PythonError.text := by
  induction actions with
  | nil => exact fun _ _ _ => rfl
  | cons action actions inductionHypothesis =>
    intro state goalReached legal
    cases goalReached with
    | true => simp [Simulator.simulate, simulate, Except.mapError]
    | false =>
      rw [Simulator.simulate, simulate, simulator_lookup]
      cases known : library.lookup action with
      | error error =>
        obtain ⟨text, rfl⟩ := raises action error known
        simp [Except.mapError, PythonError.text]
      | ok =>
        have asked : library.simulator.isApplicable state action.pddlName action.parameters =
            (library.applicable state action).mapError PythonError.text := rfl
        have applied : library.simulator.apply state action.pddlName action.parameters =
            (library.successor state action).mapError PythonError.text := rfl
        simp only [asked, applied, Except.mapError]
        cases library.applicable state action with
        | error error => rfl
        | ok answer =>
          cases answer with
          | false => rfl
          | true =>
            cases library.successor state action with
            | error error => rfl
            | ok next => exact inductionHypothesis next _ _

/-- If unknown names raise a `ValueError`, then validation with the library is that of its simulator. -/
theorem validate_simulator (raises : library.RaisesValueErrors) (actions : List ActionCall) :
    library.simulator.validate actions = library.validate actions := by
  have loops := library.simulate_simulator raises actions.length actions library.initialState
    (library.isGoal library.initialState) []
  rw [Simulator.validate, validate]
  change (library.simulator.simulate actions.length library.initialState
    (some (library.isGoal library.initialState)) [] actions).mapError _ = _
  rw [loops]
  cases library.simulate actions.length library.initialState
    (library.isGoal library.initialState) [] actions <;> rfl

/-- `process` for a nonempty list of parsed calls. -/
def process (actionCalls : List ActionCall) : ProcessedModelResponse :=
  respond actionCalls (library.validate actionCalls)

/-! ## The longest legal prefix -/

/-- The names of the call are known and it is applicable. -/
structure Legal (state : State) (action : ActionCall) (next : State) : Prop where
  known : library.lookup action = .ok ()
  applicable : library.applicable state action = .ok true
  next : library.successor state action = .ok next

/-- A sequence of legal calls that does not go on after a goal. -/
inductive LegalRun : State → List ActionCall → State → Prop
  | nil {state : State} : LegalRun state [] state
  | cons {state next final : State} {action : ActionCall} {actions : List ActionCall} :
      library.isGoal state = false → library.Legal state action next →
        LegalRun next actions final → LegalRun state (action :: actions) final

structure IsLongestPrefix (calls legal : List ActionCall) (final : State) : Prop where
  isPrefix : legal <+: calls
  run : library.LegalRun library.initialState legal final
  longest : ∀ longer state, longer <+: calls → library.LegalRun library.initialState longer state →
    longer.length ≤ legal.length

/-- The response has the longest legal prefix, its end and a status that fits. -/
def ReturnsLongestPrefix (calls : List ActionCall) (response : ProcessedModelResponse) : Prop :=
  ∃ legal final, library.IsLongestPrefix calls legal final ∧
    response.actions = legal.map ActionCall.asPddl ∧
    response.invalidActionIndex =
      (if library.isGoal final = false ∧ legal ≠ calls then some legal.length else none) ∧
    response.goalReached = some (library.isGoal final) ∧
    (response.status = .ok ↔ legal ≠ [] ∧ (legal = calls ∨ library.isGoal final = true)) ∧
    (response.status = .partialPlan ↔
      legal ≠ [] ∧ legal ≠ calls ∧ library.isGoal final = false) ∧
    (response.status ∈ [.invalidPlan, .parseError, .validationError] ∧ response.actions = [] ↔
      legal = [])

/-- The library answers for a call: unknown names raise a `ValueError`, and known ones let it say
whether the call is applicable. -/
def Answers (state : State) (action : ActionCall) : Prop :=
  match library.lookup action with
  | .ok () => ∃ answer, library.applicable state action = .ok answer
  | .error (.valueError _) => True
  | .error _ => False

/-- An applicable action has a successor. -/
def AppliesApplicable : Prop :=
  ∀ state action, library.lookup action = .ok () → library.applicable state action = .ok true →
    ∃ next, library.successor state action = .ok next

/-! ## The prefix as a function -/

/-- The state after a call, if the call is legal. -/
def next (state : State) (action : ActionCall) : Option State :=
  match library.lookup action, library.applicable state action, library.successor state action with
  | .ok (), .ok true, .ok next => some next
  | _, _, _ => none

/-- The longest legal prefix and the state at its end. -/
def legalPrefix : State → List ActionCall → List ActionCall × State
  | state, [] => ([], state)
  | state, action :: actions =>
    if library.isGoal state then ([], state)
    else
      match library.next state action with
      | some next => (action :: (legalPrefix next actions).1, (legalPrefix next actions).2)
      | none => ([], state)

variable {library}

theorem next_eq_some {state next : State} {action : ActionCall} :
    library.next state action = some next ↔ library.Legal state action next := by
  unfold UnifiedPlanning.next
  constructor
  · intro isNext
    split at isNext
    · rename_i known applicable isSuccessor
      cases isNext
      exact ⟨known, applicable, isSuccessor⟩
    · cases isNext
  · intro legal
    simp [legal.known, legal.applicable, legal.next]

theorem Legal.unique {state first second : State} {action : ActionCall}
    (isFirst : library.Legal state action first) (isSecond : library.Legal state action second) :
    first = second := Except.ok.inj (isFirst.next.symm.trans isSecond.next)

theorem LegalRun.unique {state first second : State} {actions : List ActionCall}
    (isFirst : library.LegalRun state actions first)
    (isSecond : library.LegalRun state actions second) : first = second := by
  induction isFirst with
  | nil =>
    cases isSecond with
    | nil => rfl
  | cons _ legal _ inductionHypothesis =>
    cases isSecond with
    | cons _ otherLegal rest => exact inductionHypothesis (legal.unique otherLegal ▸ rest)

theorem legalPrefix_isPrefix (calls : List ActionCall) :
    ∀ state, (library.legalPrefix state calls).1 <+: calls := by
  induction calls with
  | nil => exact fun _ => List.prefix_refl []
  | cons action actions inductionHypothesis =>
    intro state
    unfold legalPrefix
    split
    · exact List.nil_prefix
    · split
      · exact List.cons_prefix_cons.mpr ⟨rfl, inductionHypothesis _⟩
      · exact List.nil_prefix

theorem legalPrefix_run (calls : List ActionCall) : ∀ state,
    library.LegalRun state (library.legalPrefix state calls).1
      (library.legalPrefix state calls).2 := by
  induction calls with
  | nil => exact fun _ => .nil
  | cons action actions inductionHypothesis =>
    intro state
    unfold legalPrefix
    split
    · exact .nil
    · rename_i notGoal
      split
      · rename_i isNext
        exact .cons (Bool.eq_false_of_not_eq_true notGoal) (next_eq_some.mp isNext)
          (inductionHypothesis _)
      · exact .nil

theorem LegalRun.length_le {state final : State} {calls longer : List ActionCall}
    (run : library.LegalRun state longer final) :
    longer <+: calls → longer.length ≤ (library.legalPrefix state calls).1.length := by
  induction run generalizing calls with
  | nil => simp
  | @cons state next final action actions notGoal legal _ inductionHypothesis =>
    intro isPrefix
    cases calls with
    | nil => simp at isPrefix
    | cons first rest =>
      obtain ⟨rfl, isRest⟩ := List.cons_prefix_cons.mp isPrefix
      have later := inductionHypothesis isRest
      have isNext := next_eq_some.mpr legal
      simpa [legalPrefix, notGoal, isNext] using later

theorem isLongestPrefix_iff {calls legal : List ActionCall} {final : State} :
    library.IsLongestPrefix calls legal final ↔
      library.legalPrefix library.initialState calls = (legal, final) := by
  have isPrefix := @legalPrefix_isPrefix _ library calls library.initialState
  have run := @legalPrefix_run _ library calls library.initialState
  constructor
  · intro isLongest
    have atLeast := isLongest.longest _ _ isPrefix run
    have atMost := isLongest.run.length_le isLongest.isPrefix
    have same : (library.legalPrefix library.initialState calls).1 = legal :=
      (List.prefix_of_prefix_length_le isPrefix isLongest.isPrefix atLeast).eq_of_length
        (Nat.le_antisymm atLeast atMost)
    exact Prod.ext same ((same ▸ run).unique isLongest.run)
  · intro isResult
    rw [isResult] at isPrefix run
    refine ⟨isPrefix, run, fun longer state longerPrefix longerRun => ?_⟩
    have atMost := longerRun.length_le longerPrefix
    rwa [isResult] at atMost

/-! ## The loop -/

/-- The library answers for the call after the legal prefix, if a call comes after it. -/
def AnswersAfter (library : UnifiedPlanning State) (state : State) (calls : List ActionCall) : Prop :=
  ∀ legal final stopped rest, calls = legal ++ stopped :: rest → library.LegalRun state legal final →
    library.isGoal final = false → library.Answers final stopped

theorem AnswersAfter.tail {state next : State} {action : ActionCall} {actions : List ActionCall}
    (notGoal : library.isGoal state = false) (legal : library.Legal state action next) :
    library.AnswersAfter state (action :: actions) ↔ library.AnswersAfter next actions := by
  constructor
  · intro answers before final stopped rest split run
    exact answers (action :: before) final stopped rest (by rw [split]; rfl) (.cons notGoal legal run)
  · intro answers before final stopped rest split run finalNotGoal
    cases run with
    | nil =>
      cases split
      simp only [Answers, legal.known]
      exact ⟨true, legal.applicable⟩
    | cons _ otherLegal run =>
      cases split
      exact answers _ final stopped rest rfl (legal.unique otherLegal ▸ run) finalNotGoal

theorem simulate_answers (successors : library.AppliesApplicable) (total : ℕ)
    (calls : List ActionCall) : ∀ (state : State) (before : List ActionCall),
    library.AnswersAfter state calls →
    ∃ error, library.simulate total state (library.isGoal state) before calls =
      .ok ⟨before ++ (library.legalPrefix state calls).1, total,
        if library.isGoal (library.legalPrefix state calls).2 = false ∧
            (library.legalPrefix state calls).1 ≠ calls then
          some (before.length + (library.legalPrefix state calls).1.length)
        else none,
        error, some (library.isGoal (library.legalPrefix state calls).2)⟩ := by
  induction calls with
  | nil =>
    intro state before _
    exact ⟨none, by simp [simulate, legalPrefix]⟩
  | cons action actions inductionHypothesis =>
    intro state before answers
    by_cases goal : library.isGoal state = true
    · exact ⟨none, by simp [simulate, legalPrefix, goal]⟩
    · have notGoal : library.isGoal state = false := Bool.eq_false_of_not_eq_true goal
      have answered := answers [] state action actions rfl .nil notGoal
      cases isNext : library.next state action with
      | some next =>
        have legal := next_eq_some.mp isNext
        obtain ⟨error, result⟩ := inductionHypothesis next (before ++ [action])
          ((AnswersAfter.tail notGoal legal).mp answers)
        refine ⟨error, ?_⟩
        have stepped : library.simulate total state (library.isGoal state) before
            (action :: actions) = library.simulate total next (library.isGoal next)
              (before ++ [action]) actions := by
          rw [simulate, notGoal]
          simp [legal.known, legal.applicable, legal.next, bind, Except.bind]
        rw [stepped, result]
        simp [legalPrefix, notGoal, isNext, Nat.add_assoc, Nat.add_comm 1]
      | none =>
        have prefixIs : library.legalPrefix state (action :: actions) = ([], state) := by
          simp [legalPrefix, isNext]
        rw [prefixIs, simulate, notGoal]
        unfold Answers at answered
        split at answered
        · rename_i known
          obtain ⟨answer, applicable⟩ := answered
          cases answer with
          | true =>
            -- an applicable call is legal
            obtain ⟨next, isSuccessor⟩ := successors state action known applicable
            rw [next_eq_some.mpr ⟨known, applicable, isSuccessor⟩] at isNext
            cases isNext
          | false =>
            refine ⟨some ("action is not applicable: " ++ action.asPddl), ?_⟩
            simp [known, applicable, bind, Except.bind, pure, Except.pure]
        · rename_i text unknown
          exact ⟨some ("unknown action or object: " ++ text), by simp [unknown]⟩
        · exact answered.elim

/-- If the library does not answer, then the error is not caught. -/
theorem simulate_raises (total : ℕ) (calls : List ActionCall) :
    ∀ (state : State) (before : List ActionCall), ¬ library.AnswersAfter state calls →
    ∃ error, library.simulate total state (library.isGoal state) before calls = .error error := by
  induction calls with
  | nil => exact fun state before raises => absurd (fun legal _ _ _ split => by simp at split) raises
  | cons action actions inductionHypothesis =>
    intro state before raises
    have notGoal : library.isGoal state = false := by
      by_contra goal
      apply raises
      intro legal final stopped rest _ run finalNotGoal
      cases run with
      | nil => exact absurd finalNotGoal goal
      | cons stateNotGoal _ _ => exact absurd stateNotGoal goal
    cases isNext : library.next state action with
    | some next =>
      have legal := next_eq_some.mp isNext
      obtain ⟨error, result⟩ := inductionHypothesis next (before ++ [action])
        (fun answers => raises ((AnswersAfter.tail notGoal legal).mpr answers))
      refine ⟨error, ?_⟩
      rw [simulate, notGoal]
      simp [legal.known, legal.applicable, legal.next, bind, Except.bind, result]
    | none =>
      have unanswered : ¬ library.Answers state action := by
        intro answered
        apply raises
        intro legal final stopped rest split run _
        cases run with
        | nil =>
          cases split
          exact answered
        | cons _ isLegal _ =>
          cases split
          rw [next_eq_some.mpr isLegal] at isNext
          cases isNext
      rw [simulate, notGoal]
      unfold Answers at unanswered
      cases known : library.lookup action with
      | error error =>
        cases error with
        | valueError text => simp [known] at unanswered
        | typeError text => exact ⟨.typeError text, by simp⟩
        | other text => exact ⟨.other text, by simp⟩
      | ok =>
        simp only [known, not_exists] at unanswered
        cases applicable : library.applicable state action with
        | ok answer => exact absurd applicable (unanswered answer)
        | error error => exact ⟨error, by simp [bind, Except.bind]⟩

/-! ## The response -/

theorem respond_status {calls legal : List ActionCall} (isPrefix : legal <+: calls) (goal : Bool)
    (index : Option ℕ) (error : Option String) :
    let response := respond calls (.ok ⟨legal, calls.length, index, error, some goal⟩)
    (response.status = .ok ↔ legal ≠ [] ∧ (legal = calls ∨ goal = true)) ∧
      (response.status = .partialPlan ↔ legal ≠ [] ∧ legal ≠ calls ∧ goal = false) ∧
      (response.status ∈ [.invalidPlan, .parseError, .validationError] ∧ response.actions = [] ↔
        legal = []) := by
  have shorter : legal.length < calls.length ↔ legal ≠ calls := by
    constructor
    · rintro less rfl
      exact lt_irrefl _ less
    · intro different
      exact lt_of_le_of_ne isPrefix.length_le fun same => different (isPrefix.eq_of_length same)
  by_cases empty : legal = []
  · simp [respond, empty]
  · cases goal with
    | true => simp [respond, empty]
    | false =>
      by_cases whole : legal = calls
      · subst whole
        simp [respond, empty]
      · simp [respond, empty, shorter, whole]

/-- The response has the longest legal prefix exactly if the library answers for the call after it. -/
theorem process_returnsLongestPrefix_iff (library : UnifiedPlanning State)
    (successors : library.AppliesApplicable) (calls : List ActionCall) :
    library.ReturnsLongestPrefix calls (library.process calls) ↔
      library.AnswersAfter library.initialState calls := by
  constructor
  · intro returns
    by_contra raises
    obtain ⟨error, result⟩ := simulate_raises calls.length calls library.initialState [] raises
    have response : library.process calls = ⟨.validationError, [], calls.length, 0, none,
        some ("simulation failed: " ++ error.text), none⟩ := by
      rw [process, validate, result]
      rfl
    obtain ⟨legal, final, -, -, -, goalReached, -⟩ := returns
    rw [response] at goalReached
    cases goalReached
  · intro answers
    obtain ⟨error, result⟩ :=
      simulate_answers successors calls.length calls library.initialState [] answers
    have isLongest := isLongestPrefix_iff.mpr
      (Prod.ext rfl rfl : library.legalPrefix library.initialState calls = (_, _))
    refine ⟨_, _, isLongest, ?_⟩
    rw [process, validate, result]
    obtain ⟨ok, isPartial, isError⟩ := respond_status isLongest.isPrefix
      (library.isGoal (library.legalPrefix library.initialState calls).2) _ error
    refine ⟨rfl, ?_, rfl, ok, isPartial, isError⟩
    simp [respond, Except.mapError]

/-! ### A call with a parameter too many -/

/-- One action without parameters and one object; an action with a parameter raises errors. -/
def steps : UnifiedPlanning ℕ where
  initialState := 0
  isGoal := fun _ => false
  action := fun name => if name = "step" then .ok () else .error (.valueError name)
  object := fun name => if name = "box" then .ok () else .error (.valueError name)
  isApplicable := fun _ _ parameters =>
    if parameters = [] then .ok true else .error (.typeError "parameters")
  isApplicableInstance := fun _ _ parameters =>
    if parameters = [] then .ok true else .error (.other "AssertionError")
  apply := fun state _ _ => .ok (state + 1)
  applyInstance := fun state _ _ => .ok (state + 1)

def stepCall : ActionCall := { pythonName := "action_Step", pddlName := "step", parameters := [] }

def stepBoxCall : ActionCall :=
  { pythonName := "action_Step", pddlName := "step", parameters := ["box"] }

theorem process_returnsLongestPrefix_iff_steps :
    steps.ReturnsLongestPrefix [stepCall, stepBoxCall] (steps.process [stepCall, stepBoxCall]) ↔
      steps.AnswersAfter 0 [stepCall, stepBoxCall] :=
  process_returnsLongestPrefix_iff steps (fun state _ _ _ => ⟨state + 1, rfl⟩)
    [stepCall, stepBoxCall]

/-- The legal first call is lost. -/
theorem steps_losesPrefix : steps.AppliesApplicable ∧
    (steps.process [stepCall, stepBoxCall]).status = .validationError ∧
    ¬ steps.ReturnsLongestPrefix [stepCall, stepBoxCall] (steps.process [stepCall, stepBoxCall]) := by
  refine ⟨fun state _ _ _ => ⟨state + 1, rfl⟩, by decide +kernel, ?_⟩
  rintro ⟨legal, final, -, -, -, goalReached, -⟩
  have noGoal : (steps.process [stepCall, stepBoxCall]).goalReached = none := by decide +kernel
  rw [noGoal] at goalReached
  cases goalReached

end UnifiedPlanning

end CutPlan.Controller
