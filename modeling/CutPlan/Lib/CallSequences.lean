import Mathlib.Data.List.Basic

/-! # Sequences of calls

A property of all states that a sequence of calls goes through, and a condition on every call in the
state that it is made in.
-/

namespace CutPlan.Lib

variable {State Call : Type*} (step : State → Call → State)

def AtEveryState (property : State → Prop) : State → List Call → Prop
  | state, [] => property state
  | state, call :: calls => property state ∧ AtEveryState property (step state call) calls

def AtEveryCall (condition : State → Call → Prop) : State → List Call → Prop
  | _, [] => True
  | state, call :: calls => condition state call ∧ AtEveryCall condition (step state call) calls

variable {step}

/-- If a call keeps a property exactly under a condition, then a sequence of calls does. -/
theorem atEveryState_iff {invariant property : State → Prop} {valid condition : State → Call → Prop}
    (keeps : ∀ state call, invariant state → valid state call → invariant (step state call))
    (exact : ∀ state call, invariant state → valid state call → property state →
      (property (step state call) ↔ condition state call)) (calls : List Call) :
    ∀ state, invariant state → property state → AtEveryCall step valid state calls →
      (AtEveryState step property state calls ↔ AtEveryCall step condition state calls) := by
  induction calls with
  | nil => exact fun _ _ holds _ => iff_of_true holds trivial
  | cons call calls inductionHypothesis =>
    intro state invariantHolds holds allValid
    obtain ⟨callValid, restValid⟩ := allValid
    have after := keeps state call invariantHolds callValid
    have kept := exact state call invariantHolds callValid holds
    constructor
    · intro always
      have holdsAfter : property (step state call) := by
        cases calls with
        | nil => exact always.2
        | cons _ _ => exact always.2.1
      exact ⟨kept.mp holdsAfter, (inductionHypothesis _ after holdsAfter restValid).mp always.2⟩
    · intro conditions
      have holdsAfter := kept.mpr conditions.1
      exact ⟨holds, (inductionHypothesis _ after holdsAfter restValid).mpr conditions.2⟩

end CutPlan.Lib
