import Mathlib.Algebra.Order.Ring.Rat
import Mathlib.Logic.Function.Basic
import Mathlib.Order.WithBot

/-! # Evaluation

What the search reads of heuristics and evaluators.  The heuristics keep a memory of type `M`, which
only `reachState` changes; an infinite estimate is the top element.
-/

namespace CutPlan.Search

structure EvaluationContext (S : Type) where
  state : S
  g : ℚ
  isPreferred : Bool

/-- The heuristics of a search.  `preferredOperators` joins the preferred operators of all heuristics
whose value is finite, `primaryValue` is the value of `heuristics[0]`, and `cachedValues` lists the
heuristic values found in the cache of an evaluation context. -/
structure Heuristics (S O M : Type) where
  initialMemory : M
  reachState : M → S → O → S → M
  primaryValue : M → S → WithTop ℚ
  preferredOperators : M → EvaluationContext S → List O
  cachedValues : M → EvaluationContext S → List (ℕ × WithTop ℚ)

/-- A scalar evaluator.  Whether an estimate is infinite depends on the state only: `g`, preference
and constant evaluators are always finite. -/
structure ScalarEvaluator (S M : Type) where
  isInfinite : M → S → Bool
  value : M → EvaluationContext S → ℚ
  deadEndsAreReliable : Bool

def ScalarEvaluator.getHeuristicValueOrInfinity {S M : Type} (evaluator : ScalarEvaluator S M)
    (memory : M) (context : EvaluationContext S) : WithTop ℚ :=
  if evaluator.isInfinite memory context.state then ⊤ else evaluator.value memory context

/-! ## Search progress -/

/-- `best_heuristic_values`. -/
abbrev SearchProgress := ℕ → Option (WithTop ℚ)

namespace SearchProgress

def processHeuristicValue (progress : SearchProgress) (heuristic : ℕ) (h : WithTop ℚ) :
    SearchProgress × Bool :=
  match progress heuristic with
  | none => (Function.update progress heuristic (some h), true)
  | some best =>
    if h < best then (Function.update progress heuristic (some h), true) else (progress, false)

def checkProgress (progress : SearchProgress) : List (ℕ × WithTop ℚ) → SearchProgress × Bool
  | [] => (progress, false)
  | (heuristic, h) :: values =>
    let (processed, newBest) := processHeuristicValue progress heuristic h
    let (final, progressed) := checkProgress processed values
    (final, newBest || progressed)

end SearchProgress

end CutPlan.Search
