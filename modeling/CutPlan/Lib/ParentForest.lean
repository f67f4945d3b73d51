import Mathlib.Data.Int.Order.Basic
import Mathlib.Logic.Function.Basic

/-! # Parent pointers

A partial map from nodes to parents in which every node of interest leads to the root.  Redirecting
the pointer of one node keeps this as long as the new parent is strictly lower than the node in a
height that never grows towards the root.
-/

namespace CutPlan.Lib

variable {Node : Type*}

/-- Following parents from the node ends in the root. -/
inductive ReachesRoot (parent : Node → Option Node) (root : Node) : Node → Prop where
  | root : ReachesRoot parent root root
  | link {node above : Node} : parent node = some above → ReachesRoot parent root above →
      ReachesRoot parent root node

/-- `Above parent upper lower`: `upper` lies on the parent chain of `lower`. -/
inductive Above (parent : Node → Option Node) (upper : Node) : Node → Prop where
  | self : Above parent upper upper
  | link {node next : Node} : parent node = some next → Above parent upper next →
      Above parent upper node

theorem Above.height_le {parent : Node → Option Node} {height : Node → ℤ}
    (monotone : ∀ node above, parent node = some above → height above ≤ height node)
    {upper lower : Node} (above : Above parent upper lower) : height upper ≤ height lower := by
  induction above with
  | self => exact le_refl _
  | link pointer _ inductionHypothesis => exact le_trans inductionHypothesis (monotone _ _ pointer)

section Redirect

variable [DecidableEq Node] {parent : Node → Option Node} {root target newParent : Node}

/-- A chain that avoids the redirected node is unchanged. -/
theorem ReachesRoot.redirect_of_not_above {node : Node}
    (reaches : ReachesRoot parent root node) (avoids : ¬ Above parent target node) :
    ReachesRoot (Function.update parent target (some newParent)) root node := by
  induction reaches with
  | root => exact .root
  | @link node above pointer _ inductionHypothesis =>
    have different : node ≠ target := by
      rintro rfl
      exact avoids .self
    have unchanged : Function.update parent target (some newParent) node = some above := by
      rw [Function.update_of_ne different, pointer]
    apply ReachesRoot.link unchanged
    · exact inductionHypothesis (fun onChain => avoids (.link pointer onChain))

theorem ReachesRoot.redirect (height : Node → ℤ)
    (monotone : ∀ node above, parent node = some above → height above ≤ height node)
    (lower : height newParent < height target)
    (parentReaches : ReachesRoot parent root newParent)
    {node : Node} (reaches : ReachesRoot parent root node) :
    ReachesRoot (Function.update parent target (some newParent)) root node := by
  have parentChain : ReachesRoot (Function.update parent target (some newParent)) root newParent :=
    parentReaches.redirect_of_not_above
      (fun onChain => absurd (onChain.height_le monotone) (not_le.mpr lower))
  induction reaches with
  | root => exact .root
  | @link node above pointer _ inductionHypothesis =>
    by_cases same : node = target
    · subst same
      exact .link (Function.update_self ..) parentChain
    · exact .link (by rw [Function.update_of_ne same, pointer]) inductionHypothesis

end Redirect

end CutPlan.Lib
