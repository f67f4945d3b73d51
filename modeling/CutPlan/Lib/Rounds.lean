import Mathlib.Data.Finset.Card
import Mathlib.Logic.Function.Iterate
import Mathlib.Order.Monotone.Basic

/-! # Rounds of a step that marks things

If every round keeps what is marked, and a round that marks nothing new changes nothing, then there are
at most as many useful rounds as there are things to mark.
-/

namespace CutPlan.Lib

variable {State Mark : Type*} {step : State → State} {marked : State → Finset Mark} {bound : ℕ}

theorem rounds_fixed (grows : ∀ state, marked state ⊆ marked (step state))
    (bounded : ∀ state, (marked state).card ≤ bound)
    (silent : ∀ state, marked state = marked (step state) → step state = state) (start : State) :
    step (step^[bound] start) = step^[bound] start := by
  let count (round : ℕ) := (marked (step^[round] start)).card
  have grows (round : ℕ) : marked (step^[round] start) ⊆ marked (step^[round + 1] start) := by
    rw [Function.iterate_succ_apply']
    exact grows _
  have fixed (round : ℕ) (same : count round = count (round + 1)) :
      step (step^[round] start) = step^[round] start := by
    apply silent
    rw [← Function.iterate_succ_apply' step]
    exact Finset.eq_of_subset_of_card_le (grows round) same.ge
  have stable : count (bound + 1) = count bound := by
    refine Nat.stabilises_of_monotone (f := count)
      (monotone_nat_of_le_succ fun round => Finset.card_le_card (grows round))
      (fun round => bounded _) ?_ (Nat.le_succ bound)
    intro round same
    have isFixed := fixed round same
    simp only [count, Function.iterate_succ_apply', isFixed]
  exact fixed bound stable.symm

theorem rounds_stable (grows : ∀ state, marked state ⊆ marked (step state))
    (bounded : ∀ state, (marked state).card ≤ bound)
    (silent : ∀ state, marked state = marked (step state) → step state = state) (start : State)
    {rounds : ℕ} (enough : bound ≤ rounds) : step^[rounds] start = step^[bound] start := by
  obtain ⟨extra, rfl⟩ := Nat.exists_eq_add_of_le enough
  rw [Nat.add_comm, Function.iterate_add_apply,
    Function.iterate_fixed (rounds_fixed grows bounded silent start)]

end CutPlan.Lib
