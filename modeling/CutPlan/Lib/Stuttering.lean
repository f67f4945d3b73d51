import CutPlan.Lib.Machine
import Mathlib.Logic.Function.Iterate
import Mathlib.Order.WellFounded

/-! # Stuttering refinement

A machine is observed through a view.  If each of its steps leaves the view unchanged or advances it
by one fixed function, every run follows the orbit of that function; if it also advances again and
again, it follows the whole orbit.  Two such machines that start in the same view are therefore
indistinguishable.
-/

namespace CutPlan.Lib.Machine

variable {State Input View : Type*} (machine : Machine State Input)

/-! ## Infinite runs -/

def stateAt (inputs : ℕ → Input) : ℕ → State
  | 0 => machine.start
  | n + 1 => machine.next (stateAt inputs n) (inputs n)

theorem stateAt_invariant (invariant : State → Prop) {inputs : ℕ → Input}
    (initially : invariant machine.start)
    (preserved : ∀ state n, invariant state → invariant (machine.next state (inputs n))) (n : ℕ) :
    invariant (machine.stateAt inputs n) := by
  induction n with
  | zero => exact initially
  | succ n inductionHypothesis => exact preserved _ n inductionHypothesis

/-- A goal is reached from every point of a run if every step before it lowers a well-founded rank. -/
theorem eventually_of_rank {Rank : Type*} [LT Rank] [WellFoundedLT Rank] (rank : State → Rank)
    (goal : State → Prop) {inputs : ℕ → Input}
    (decreases : ∀ n, ¬ goal (machine.stateAt inputs n) →
      rank (machine.stateAt inputs (n + 1)) < rank (machine.stateAt inputs n))
    (n : ℕ) : ∃ m, n ≤ m ∧ goal (machine.stateAt inputs m) := by
  induction rankDef : rank (machine.stateAt inputs n) using WellFoundedLT.induction
    generalizing n with
  | ind value inductionHypothesis =>
    by_cases reached : goal (machine.stateAt inputs n)
    · exact ⟨n, le_refl n, reached⟩
    · obtain ⟨m, later, atGoal⟩ :=
        inductionHypothesis _ (rankDef ▸ decreases n reached) (n + 1) rfl
      exact ⟨m, by omega, atGoal⟩

/-! ## Following an orbit -/

section Orbit

variable (project : State → View) (advance : View → View) (inputs : ℕ → Input)

/-- The step advances the view. -/
def Advances (n : ℕ) : Prop :=
  project (machine.stateAt inputs (n + 1)) = advance (project (machine.stateAt inputs n))

/-- Every step that does not advance the view leaves it unchanged. -/
def Stutters : Prop :=
  ∀ n, ¬ machine.Advances project advance inputs n →
    project (machine.stateAt inputs (n + 1)) = project (machine.stateAt inputs n)

variable {project advance inputs}

theorem stateAt_on_orbit (stutters : machine.Stutters project advance inputs) (n : ℕ) :
    ∃ k, project (machine.stateAt inputs n) = advance^[k] (project machine.start) := by
  induction n with
  | zero => exact ⟨0, rfl⟩
  | succ n inductionHypothesis =>
    obtain ⟨k, onOrbit⟩ := inductionHypothesis
    by_cases advances : machine.Advances project advance inputs n
    · refine ⟨k + 1, ?_⟩
      rw [Function.iterate_succ_apply', ← onOrbit]
      exact advances
    · exact ⟨k, (stutters n advances).trans onOrbit⟩

/-- The next advance, and the unchanged view up to it. -/
theorem next_advance (stutters : machine.Stutters project advance inputs) {n m : ℕ} (later : n ≤ m)
    (advances : machine.Advances project advance inputs m) :
    ∃ first, machine.Advances project advance inputs first ∧
      project (machine.stateAt inputs first) = project (machine.stateAt inputs n) := by
  induction later using Nat.decreasingInduction with
  | self => exact ⟨m, advances, rfl⟩
  | of_succ n _ inductionHypothesis =>
    by_cases now : machine.Advances project advance inputs n
    · exact ⟨n, now, rfl⟩
    · obtain ⟨first, firstAdvances, same⟩ := inductionHypothesis
      exact ⟨first, firstAdvances, same.trans (stutters n now)⟩

theorem orbit_reached (stutters : machine.Stutters project advance inputs)
    (progress : ∀ n, ∃ m, n ≤ m ∧ machine.Advances project advance inputs m) (k : ℕ) :
    ∃ n, project (machine.stateAt inputs n) = advance^[k] (project machine.start) := by
  induction k with
  | zero => exact ⟨0, rfl⟩
  | succ k inductionHypothesis =>
    obtain ⟨n, onOrbit⟩ := inductionHypothesis
    obtain ⟨m, later, advances⟩ := progress n
    obtain ⟨first, firstAdvances, same⟩ := machine.next_advance stutters later advances
    refine ⟨first + 1, ?_⟩
    rw [Function.iterate_succ_apply', ← onOrbit, ← same]
    exact firstAdvances

end Orbit

/-- Whatever one machine shows, a machine that follows the whole orbit shows as well. -/
theorem view_matched {OtherState OtherInput : Type*} (machine : Machine State Input)
    (other : Machine OtherState OtherInput) {project : State → View} {otherProject : OtherState → View}
    {advance : View → View} {inputs : ℕ → Input} {otherInputs : ℕ → OtherInput}
    (sameStart : project machine.start = otherProject other.start)
    (stutters : machine.Stutters project advance inputs)
    (otherStutters : other.Stutters otherProject advance otherInputs)
    (otherProgress : ∀ n, ∃ m, n ≤ m ∧ other.Advances otherProject advance otherInputs m) (n : ℕ) :
    ∃ m, otherProject (other.stateAt otherInputs m) = project (machine.stateAt inputs n) := by
  obtain ⟨k, onOrbit⟩ := machine.stateAt_on_orbit stutters n
  obtain ⟨m, reached⟩ := other.orbit_reached otherStutters otherProgress k
  exact ⟨m, by rw [reached, onOrbit, sameStart]⟩

end CutPlan.Lib.Machine
