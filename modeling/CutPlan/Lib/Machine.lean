import Mathlib.Data.List.Basic

/-! # Deterministic machines with inputs

A machine reads one input per step.  `Machine.runFrom` feeds it a list of inputs; the rules below
carry a predicate from one step to a whole run, also when the steps of that run are assumed to meet
a condition on the state before the step.
-/

namespace CutPlan.Lib

structure Machine (State Input : Type*) where
  start : State
  next : State → Input → State

namespace Machine

variable {State Input : Type*} (machine : Machine State Input)

def runFrom (state : State) (inputs : List Input) : State :=
  inputs.foldl machine.next state

def run (inputs : List Input) : State :=
  machine.runFrom machine.start inputs

@[simp] theorem runFrom_nil (state : State) : machine.runFrom state [] = state := rfl

@[simp] theorem runFrom_cons (state : State) (input : Input) (inputs : List Input) :
    machine.runFrom state (input :: inputs) = machine.runFrom (machine.next state input) inputs :=
  rfl

theorem runFrom_append (state : State) (first second : List Input) :
    machine.runFrom state (first ++ second) = machine.runFrom (machine.runFrom state first) second :=
  List.foldl_append

/-- Every step of the run from `state` meets `condition` in the state it starts from. -/
def StepsMeet (condition : State → Input → Prop) : State → List Input → Prop
  | _, [] => True
  | state, input :: inputs =>
    condition state input ∧ StepsMeet condition (machine.next state input) inputs

instance decidableStepsMeet {condition : State → Input → Prop} [∀ state input, Decidable (condition state input)] :
    ∀ (state : State) (inputs : List Input),
      Decidable (machine.StepsMeet condition state inputs)
  | _, [] => isTrue trivial
  | state, input :: inputs =>
    let _ : Decidable (machine.StepsMeet condition (machine.next state input) inputs) :=
      decidableStepsMeet (machine.next state input) inputs
    inferInstanceAs (Decidable
      (condition state input ∧ machine.StepsMeet condition (machine.next state input) inputs))

theorem runFrom_invariant (invariant : State → Prop) (condition : State → Input → Prop)
    (preserved : ∀ state input, condition state input → invariant state →
      invariant (machine.next state input))
    (state : State) (inputs : List Input) (initially : invariant state)
    (meets : machine.StepsMeet condition state inputs) :
    invariant (machine.runFrom state inputs) := by
  induction inputs generalizing state with
  | nil => exact initially
  | cons input inputs inductionHypothesis =>
    obtain ⟨headMeets, tailMeets⟩ := meets
    exact inductionHypothesis _ (preserved state input headMeets initially) tailMeets

theorem stepsMeet_of_forall_mem {condition : State → Input → Prop} {inputs : List Input}
    (always : ∀ input ∈ inputs, ∀ state, condition state input) (state : State) :
    machine.StepsMeet condition state inputs := by
  induction inputs generalizing state with
  | nil => trivial
  | cons input inputs inductionHypothesis =>
    exact ⟨always input List.mem_cons_self state,
      inductionHypothesis (fun later isLater => always later (List.mem_cons_of_mem _ isLater)) _⟩

theorem stepsMeet_of_forall {condition : State → Input → Prop}
    (always : ∀ state input, condition state input) (state : State) (inputs : List Input) :
    machine.StepsMeet condition state inputs :=
  machine.stepsMeet_of_forall_mem (fun input _ state => always state input) state

theorem StepsMeet.of_append {condition : State → Input → Prop} {state : State} {first second : List Input}
    (meets : machine.StepsMeet condition state (first ++ second)) :
    machine.StepsMeet condition state first := by
  induction first generalizing state with
  | nil => trivial
  | cons input first inductionHypothesis => exact ⟨meets.1, inductionHypothesis meets.2⟩

/-- If a violated condition shows in the next state, a condition is met along a run exactly if no state of
the run shows a violation. -/
theorem stepsMeet_iff_of_invariant (invariant good : State → Prop) {condition : State → Input → Prop}
    {state : State} (initially : invariant state) (sound : ∀ state, invariant state → good state)
    (preserved : ∀ state input, condition state input → invariant state → invariant (machine.next state input))
    (shows : ∀ state input, invariant state → good (machine.next state input) → condition state input)
    (inputs : List Input) :
    (∀ first second, inputs = first ++ second → good (machine.runFrom state first)) ↔
      machine.StepsMeet condition state inputs := by
  constructor
  · intro stays
    induction inputs generalizing state with
    | nil => trivial
    | cons input inputs inductionHypothesis =>
      have meets : condition state input := shows state input initially (stays [input] inputs rfl)
      refine ⟨meets, inductionHypothesis (preserved state input meets initially) ?_⟩
      rintro first second rfl
      exact stays (input :: first) second rfl
  · rintro meets first second rfl
    exact sound _ (machine.runFrom_invariant invariant condition preserved state first initially
      (StepsMeet.of_append machine meets))

/-- Along a run a condition may be replaced by one that follows from it and an invariant. -/
theorem stepsMeet_of_invariant (invariant : State → Prop) (check : State → Input → Prop)
    {condition : State → Input → Prop} {state : State} (initially : invariant state)
    (preserved : ∀ state input, invariant state → invariant (machine.next state input))
    (sound : ∀ state input, invariant state → check state input → condition state input)
    (inputs : List Input) (checked : machine.StepsMeet check state inputs) :
    machine.StepsMeet condition state inputs := by
  induction inputs generalizing state with
  | nil => trivial
  | cons input inputs inductionHypothesis =>
    obtain ⟨headChecked, tailChecked⟩ := checked
    exact ⟨sound state input initially headChecked,
      inductionHypothesis (preserved state input initially) tailChecked⟩

theorem run_invariant {invariant : State → Prop}
    (initially : invariant machine.start)
    (preserved : ∀ state input, invariant state → invariant (machine.next state input))
    (inputs : List Input) : invariant (machine.run inputs) :=
  machine.runFrom_invariant invariant (fun _ _ => True)
    (fun state input _ => preserved state input) machine.start inputs initially
    (machine.stepsMeet_of_forall (fun _ _ => trivial) _ _)

end Machine

end CutPlan.Lib
