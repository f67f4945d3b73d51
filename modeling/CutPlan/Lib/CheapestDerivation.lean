import Mathlib.Algebra.Order.Monoid.Defs
import Mathlib.Data.List.Basic

/-! # Cheapest derivations

Rules derive nodes from premises.  A derivation by a rule costs as much as its dearest premise plus the
weight with which the rule achieves the node.  A labelling with costs that can be derived and that no
rule improves gives the cheapest derivations, and it is the least fixpoint of the equations of the
rules, where a labelling grows by labelling more nodes and by cheaper labels.
-/

set_option linter.unusedSectionVars false

namespace CutPlan.Lib

structure RuleGraph (Node Rule Cost : Type*) [Zero Cost] [LE Cost] where
  source : Node → Prop
  premises : Rule → List Node
  /-- The weight with which the rule achieves the node, if it does. -/
  weight : Rule → Node → Option Cost
  weight_nonneg : ∀ rule node value, weight rule node = some value → 0 ≤ value

namespace RuleGraph

variable {Node Rule Cost : Type*} [AddCommMonoid Cost] [LinearOrder Cost] [IsOrderedAddMonoid Cost]
  (graph : RuleGraph Node Rule Cost)

/-- What can be derived at all. -/
inductive Reachable : Node → Prop
  | source {node : Node} (isSource : graph.source node) : Reachable node
  | rule {rule : Rule} {node : Node} {value : Cost} (weighs : graph.weight rule node = some value)
      (premises : ∀ premise ∈ graph.premises rule, Reachable premise) : Reachable node

/-- What can be derived at a cost, where the cost of the premises may be overestimated. -/
inductive Derives : Node → Cost → Prop
  | source {node : Node} (isSource : graph.source node) : Derives node 0
  | rule {rule : Rule} {node : Node} {value bound : Cost} (costs : Node → Cost)
      (weighs : graph.weight rule node = some value) (nonneg : 0 ≤ bound)
      (premises : ∀ premise ∈ graph.premises rule, Derives premise (costs premise))
      (below : ∀ premise ∈ graph.premises rule, costs premise ≤ bound) : Derives node (bound + value)

/-- The node is labelled with a cost of at most the bound. -/
def Within (label : Node → Option Cost) (node : Node) (bound : Cost) : Prop :=
  ∃ cost, label node = some cost ∧ cost ≤ bound

/-- No rule improves the labelling. -/
structure Closed (label : Node → Option Cost) : Prop where
  sources : ∀ node, graph.source node → Within label node 0
  rules : ∀ rule node value bound, graph.weight rule node = some value → 0 ≤ bound →
    (∀ premise ∈ graph.premises rule, Within label premise bound) →
    Within label node (bound + value)

def Sound (label : Node → Option Cost) : Prop :=
  ∀ node cost, label node = some cost → graph.Derives node cost

/-- The labels are the costs of cheapest derivations. -/
structure Cheapest (label : Node → Option Cost) : Prop where
  sound : graph.Sound label
  least : ∀ node cost, graph.Derives node cost → Within label node cost

/-- The bound is the label of a dearest node of the list, or zero if there is none. -/
def Dearest (label : Node → Option Cost) (nodes : List Node) (bound : Cost) : Prop :=
  (∀ node ∈ nodes, Within label node bound) ∧
    ((nodes = [] ∧ bound = 0) ∨ ∃ node ∈ nodes, label node = some bound)

/-- The costs among which the equation of a node takes the minimum. -/
def Achieves (label : Node → Option Cost) (node : Node) (cost : Cost) : Prop :=
  (graph.source node ∧ cost = 0) ∨
    ∃ rule value bound, graph.weight rule node = some value ∧
      Dearest label (graph.premises rule) bound ∧ cost = bound + value

/-- Each node is labelled with the minimum of its equation, or not at all if there is none. -/
structure IsFixpoint (label : Node → Option Cost) : Prop where
  achieved : ∀ node cost, label node = some cost → graph.Achieves label node cost
  minimal : ∀ node cost, graph.Achieves label node cost → Within label node cost

structure IsLeastFixpoint (label : Node → Option Cost) : Prop where
  isFixpoint : graph.IsFixpoint label
  least : ∀ other, graph.IsFixpoint other → ∀ node cost, label node = some cost →
    Within other node cost

variable {graph}

theorem Within.mono {label : Node → Option Cost} {node : Node} {bound larger : Cost}
    (within : Within label node bound) (le : bound ≤ larger) : Within label node larger := by
  obtain ⟨cost, labelled, isWithin⟩ := within
  exact ⟨cost, labelled, isWithin.trans le⟩

/-! ## Derivations -/

theorem Derives.reachable {node : Node} {cost : Cost} (derives : graph.Derives node cost) :
    graph.Reachable node := by
  induction derives with
  | source isSource => exact .source isSource
  | rule _ weighs _ _ _ premisesReachable => exact .rule weighs premisesReachable

theorem Derives.nonneg {node : Node} {cost : Cost} (derives : graph.Derives node cost) :
    0 ≤ cost := by
  cases derives with
  | source => exact le_refl 0
  | rule _ weighs nonneg => exact add_nonneg nonneg (graph.weight_nonneg _ _ _ weighs)

theorem exists_bound (costs : Node → Cost) (start : Cost) (nodes : List Node) :
    ∃ bound, start ≤ bound ∧ ∀ node ∈ nodes, costs node ≤ bound := by
  induction nodes with
  | nil => exact ⟨start, le_refl start, by simp⟩
  | cons node nodes inductionHypothesis =>
    obtain ⟨bound, startLe, below⟩ := inductionHypothesis
    refine ⟨max (costs node) bound, startLe.trans (le_max_right _ _), ?_⟩
    rw [List.forall_mem_cons]
    exact ⟨le_max_left _ _, fun other member => (below other member).trans (le_max_right _ _)⟩

theorem Reachable.derives {node : Node} (reachable : graph.Reachable node) :
    ∃ cost, graph.Derives node cost := by
  induction reachable with
  | source isSource => exact ⟨0, .source isSource⟩
  | @rule rule _ _ weighs _ premisesDerive =>
    classical
    choose! costs derive using premisesDerive
    obtain ⟨bound, nonneg, below⟩ := exists_bound costs 0 (graph.premises rule)
    exact ⟨_, .rule costs weighs nonneg derive below⟩

/-! ## Cheapest labels -/

theorem Closed.least {label : Node → Option Cost} (closed : graph.Closed label) {node : Node}
    {cost : Cost} (derives : graph.Derives node cost) : Within label node cost := by
  induction derives with
  | source isSource => exact closed.sources _ isSource
  | rule costs weighs nonneg _ below premisesWithin =>
    refine closed.rules _ _ _ _ weighs nonneg fun premise member => ?_
    exact (premisesWithin premise member).mono (below premise member)

theorem cheapest_of_closed {label : Node → Option Cost} (sound : graph.Sound label)
    (closed : graph.Closed label) : graph.Cheapest label :=
  ⟨sound, fun _ _ => closed.least⟩

namespace Cheapest

variable {label : Node → Option Cost} (cheapest : graph.Cheapest label)

include cheapest

theorem closed : graph.Closed label where
  sources := fun node isSource => cheapest.least node 0 (.source isSource)
  rules := by
    intro rule node value bound weighs nonneg premises
    refine cheapest.least node _ (.rule (fun premise => (label premise).getD 0) weighs nonneg ?_ ?_)
    · intro premise member
      obtain ⟨cost, labelled, -⟩ := premises premise member
      rw [labelled]
      exact cheapest.sound premise cost labelled
    · intro premise member
      obtain ⟨cost, labelled, within⟩ := premises premise member
      rw [labelled]
      exact within

theorem isSome_iff (node : Node) : (label node).isSome = true ↔ graph.Reachable node := by
  constructor
  · intro isSome
    obtain ⟨cost, labelled⟩ := Option.isSome_iff_exists.mp isSome
    exact (cheapest.sound node cost labelled).reachable
  · intro reachable
    obtain ⟨cost, derives⟩ := reachable.derives
    obtain ⟨least, labelled, -⟩ := cheapest.least node cost derives
    exact Option.isSome_iff_exists.mpr ⟨least, labelled⟩

theorem unique {other : Node → Option Cost} (otherCheapest : graph.Cheapest other) :
    label = other := by
  funext node
  cases labelled : label node with
  | none =>
    cases otherLabelled : other node with
    | none => rfl
    | some cost =>
      have within := cheapest.least node cost (otherCheapest.sound node cost otherLabelled)
      simp [Within, labelled] at within
  | some cost =>
    obtain ⟨otherCost, otherLabelled, le⟩ :=
      otherCheapest.least node cost (cheapest.sound node cost labelled)
    obtain ⟨again, labelledAgain, ge⟩ :=
      cheapest.least node otherCost (otherCheapest.sound node otherCost otherLabelled)
    have same : again = cost := by simpa [labelled] using labelledAgain.symm
    rw [otherLabelled, le_antisymm (same ▸ ge) le]

end Cheapest

/-! ## Least fixpoints -/

theorem exists_dearest (label : Node → Option Cost) (nodes : List Node)
    (labelled : ∀ node ∈ nodes, (label node).isSome = true) :
    ∃ bound, Dearest label nodes bound := by
  induction nodes with
  | nil => exact ⟨0, by simp, .inl ⟨rfl, rfl⟩⟩
  | cons node nodes inductionHypothesis =>
    rw [List.forall_mem_cons] at labelled
    obtain ⟨cost, isCost⟩ := Option.isSome_iff_exists.mp labelled.1
    obtain ⟨bound, within, attained⟩ := inductionHypothesis labelled.2
    cases attained with
    | inl noNodes =>
      obtain ⟨rfl, rfl⟩ := noNodes
      exact ⟨cost, by simp [Within, isCost], .inr ⟨node, by simp, isCost⟩⟩
    | inr isAttained =>
      obtain ⟨dearest, member, isBound⟩ := isAttained
      cases le_total cost bound with
      | inl le =>
        refine ⟨bound, List.forall_mem_cons.mpr ⟨⟨cost, isCost, le⟩, within⟩, .inr ⟨dearest, ?_, isBound⟩⟩
        exact List.mem_cons_of_mem _ member
      | inr ge =>
        refine ⟨cost, List.forall_mem_cons.mpr ⟨⟨cost, isCost, le_refl cost⟩, ?_⟩, .inr ⟨node, ?_, isCost⟩⟩
        · exact fun other otherMember => (within other otherMember).mono ge
        · exact List.mem_cons_self

theorem Dearest.le {label : Node → Option Cost} {nodes : List Node} {bound larger : Cost}
    (dearest : Dearest label nodes bound) (nonneg : 0 ≤ larger)
    (within : ∀ node ∈ nodes, Within label node larger) : bound ≤ larger := by
  cases dearest.2 with
  | inl noNodes => exact noNodes.2.trans_le nonneg
  | inr attained =>
    obtain ⟨node, member, isBound⟩ := attained
    obtain ⟨cost, labelled, le⟩ := within node member
    rw [isBound] at labelled
    cases labelled
    exact le

theorem Cheapest.dearest_nonneg {label : Node → Option Cost} (cheapest : graph.Cheapest label)
    {nodes : List Node} {bound : Cost} (dearest : Dearest label nodes bound) : 0 ≤ bound := by
  cases dearest.2 with
  | inl noNodes => exact noNodes.2.ge
  | inr attained =>
    obtain ⟨node, -, isBound⟩ := attained
    exact (cheapest.sound node bound isBound).nonneg

theorem Cheapest.isFixpoint {label : Node → Option Cost} (cheapest : graph.Cheapest label) :
    graph.IsFixpoint label where
  achieved := by
    intro node cost labelled
    cases cheapest.sound node cost labelled with
    | source isSource => exact .inl ⟨isSource, rfl⟩
    | @rule rule _ value bound costs weighs nonneg premises below =>
      have within : ∀ premise ∈ graph.premises rule, Within label premise bound :=
        fun premise member => (cheapest.least _ _ (premises premise member)).mono (below premise member)
      obtain ⟨maximum, dearest⟩ := exists_dearest label (graph.premises rule)
        fun premise member => by
          obtain ⟨cost, isCost, -⟩ := within premise member
          simp [isCost]
      -- the overestimate of the premises is not strict, since the label is the least
      have improved := cheapest.closed.rules rule node value maximum weighs
        (cheapest.dearest_nonneg dearest) dearest.1
      obtain ⟨least, labelledLeast, le⟩ := improved
      rw [labelled] at labelledLeast
      cases labelledLeast
      have ge := add_le_add_left (dearest.le nonneg within) value
      exact .inr ⟨rule, value, maximum, weighs, dearest, le_antisymm le ge⟩
  minimal := by
    intro node cost achieves
    cases achieves with
    | inl isSource => exact isSource.2 ▸ cheapest.closed.sources node isSource.1
    | inr byRule =>
      obtain ⟨rule, value, bound, weighs, dearest, rfl⟩ := byRule
      exact cheapest.closed.rules rule node value bound weighs (cheapest.dearest_nonneg dearest)
        dearest.1

theorem IsFixpoint.closed {label : Node → Option Cost} (isFixpoint : graph.IsFixpoint label) :
    graph.Closed label where
  sources := fun node isSource => isFixpoint.minimal node 0 (.inl ⟨isSource, rfl⟩)
  rules := by
    intro rule node value bound weighs nonneg within
    obtain ⟨maximum, dearest⟩ := exists_dearest label (graph.premises rule)
      fun premise member => by
        obtain ⟨cost, isCost, -⟩ := within premise member
        simp [isCost]
    have achieved := isFixpoint.minimal node _ (.inr ⟨rule, value, maximum, weighs, dearest, rfl⟩)
    exact achieved.mono (add_le_add_left (dearest.le nonneg within) value)

theorem Cheapest.isLeastFixpoint {label : Node → Option Cost} (cheapest : graph.Cheapest label) :
    graph.IsLeastFixpoint label where
  isFixpoint := cheapest.isFixpoint
  least := fun _ otherFixpoint node cost labelled =>
    otherFixpoint.closed.least (cheapest.sound node cost labelled)

end RuleGraph

end CutPlan.Lib
