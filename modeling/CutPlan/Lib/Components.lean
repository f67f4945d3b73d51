import Mathlib.Data.List.Dedup
import Mathlib.Data.List.Nodup
import Mathlib.Data.List.Pairwise
import Mathlib.Data.List.Perm.Basic

/-! # Connected components

A depth-first search takes the nodes it visits out of those that remain and collects them.  Searches from the nodes
that remain, until there are none, give a partition of the nodes into components: no node has a neighbour in a later
component, and all nodes of a component are reached inside of it.
-/

namespace CutPlan.Lib

variable {Node : Type*}

/-- The nodes that have been collected, and the nodes that remain. -/
structure ComponentSearch (Node : Type*) where
  component : List Node
  remaining : List Node
  deriving Repr

section Search

variable [DecidableEq Node] (neighbours : Node → List Node)

def visit : ℕ → Node → ComponentSearch Node → ComponentSearch Node
  | 0, _, search => search
  | fuel + 1, node, search =>
    (neighbours node).foldl
      (fun search neighbour => if neighbour ∈ search.remaining then visit fuel neighbour search else search)
      ⟨search.component ++ [node], search.remaining.erase node⟩

def visitAll (fuel : ℕ) (nodes : List Node) (search : ComponentSearch Node) : ComponentSearch Node :=
  nodes.foldl
    (fun search neighbour => if neighbour ∈ search.remaining then visit neighbours fuel neighbour search else search) search

def componentsFrom : ℕ → List Node → List (List Node)
  | 0, _ => []
  | _ + 1, [] => []
  | fuel + 1, node :: remaining =>
    let search := visit neighbours (remaining.length + 1) node ⟨[], node :: remaining⟩
    search.component :: componentsFrom fuel search.remaining

/-- Equal nodes are one node of the graph. -/
def connectedComponents (nodes : List Node) : List (List Node) :=
  componentsFrom neighbours nodes.dedup.length nodes.dedup

end Search

/-! ## What a search collects -/

/-- Whatever holds of some of the starts and goes over to neighbours holds of everything that was added. -/
def ReachedFrom (neighbours : Node → List Node) (starts added : List Node) : Prop :=
  ∀ holds : Node → Prop, (∀ start ∈ starts, start ∈ added → holds start) →
    (∀ node ∈ added, holds node → ∀ neighbour ∈ added, neighbour ∈ neighbours node → holds neighbour) →
      ∀ node ∈ added, holds node

/-- The starts that remained have been collected, and so has everything that is next to what was added. -/
structure Collects (neighbours : Node → List Node) (starts : List Node) (before after : ComponentSearch Node)
    (added : List Node) : Prop where
  component : after.component = before.component ++ added
  remaining : before.remaining.Perm (added ++ after.remaining)
  taken : ∀ start ∈ starts, start ∉ after.remaining
  closed : ∀ node ∈ added, ∀ neighbour ∈ neighbours node, neighbour ∉ after.remaining
  reached : ReachedFrom neighbours starts added

namespace Collects

variable {neighbours : Node → List Node} {node : Node} {nodes starts added moreAdded : List Node}
  {before middle after : ComponentSearch Node}

theorem nil : Collects neighbours [] before before [] :=
  ⟨by simp, by simp, by simp, by simp, by simp [ReachedFrom]⟩

theorem remains (collects : Collects neighbours starts before after added) {node : Node}
    (isRemaining : node ∈ after.remaining) : node ∈ before.remaining :=
  collects.remaining.mem_iff.mpr (List.mem_append_right _ isRemaining)

/-- A start that does not remain is passed over. -/
theorem skip (collects : Collects neighbours starts before after added) (absent : node ∉ before.remaining) :
    Collects neighbours (node :: starts) before after added where
  component := collects.component
  remaining := collects.remaining
  taken := List.forall_mem_cons.mpr ⟨fun isRemaining => absent (collects.remains isRemaining), collects.taken⟩
  closed := collects.closed
  reached := fun holds fromStarts => collects.reached holds fun start isStart =>
    fromStarts start (List.mem_cons_of_mem _ isStart)

theorem append (first : Collects neighbours [node] before middle added)
    (rest : Collects neighbours starts middle after moreAdded) :
    Collects neighbours (node :: starts) before after (added ++ moreAdded) where
  component := by rw [rest.component, first.component, List.append_assoc]
  remaining := by
    rw [List.append_assoc]
    exact first.remaining.trans (rest.remaining.append_left added)
  taken := List.forall_mem_cons.mpr
    ⟨fun isRemaining => first.taken node List.mem_cons_self (rest.remains isRemaining), rest.taken⟩
  closed := by
    intro collected isCollected neighbour isNeighbour isRemaining
    cases List.mem_append.mp isCollected with
    | inl isFirst => exact first.closed collected isFirst neighbour isNeighbour (rest.remains isRemaining)
    | inr isRest => exact rest.closed collected isRest neighbour isNeighbour isRemaining
  reached := by
    intro holds fromStarts step collected isCollected
    cases List.mem_append.mp isCollected with
    | inl isFirst =>
      refine first.reached holds (fun start isStart isAdded => ?_) (fun known isKnown holdsKnown neighbour isAdded => ?_)
        collected isFirst
      · rw [List.mem_singleton.mp isStart] at isAdded ⊢
        exact fromStarts node List.mem_cons_self (List.mem_append_left _ isAdded)
      · exact step known (List.mem_append_left _ isKnown) holdsKnown neighbour (List.mem_append_left _ isAdded)
    | inr isRest =>
      refine rest.reached holds (fun start isStart isAdded => ?_) (fun known isKnown holdsKnown neighbour isAdded => ?_)
        collected isRest
      · exact fromStarts start (List.mem_cons_of_mem _ isStart) (List.mem_append_right _ isAdded)
      · exact step known (List.mem_append_right _ isKnown) holdsKnown neighbour (List.mem_append_right _ isAdded)

/-- A node is taken out before its neighbours are visited. -/
theorem take [DecidableEq Node] (isRemaining : node ∈ before.remaining) (distinct : before.remaining.Nodup)
    (rest : Collects neighbours (neighbours node) ⟨before.component ++ [node], before.remaining.erase node⟩ after added) :
    Collects neighbours [node] before after (node :: added) where
  component := by simp [rest.component]
  remaining := by
    rw [List.cons_append]
    exact (List.perm_cons_erase isRemaining).trans (rest.remaining.cons node)
  taken := by
    intro start isStart stillRemains
    rw [List.mem_singleton.mp isStart] at stillRemains
    exact distinct.not_mem_erase (rest.remains stillRemains)
  closed := List.forall_mem_cons.mpr ⟨rest.taken, rest.closed⟩
  reached := by
    intro holds fromStarts step
    have holdsNode : holds node := fromStarts node List.mem_cons_self List.mem_cons_self
    refine List.forall_mem_cons.mpr ⟨holdsNode, ?_⟩
    refine rest.reached holds (fun start isNeighbour isAdded => ?_) fun known isKnown holdsKnown neighbour isAdded => ?_
    · exact step node List.mem_cons_self holdsNode start (List.mem_cons_of_mem _ isAdded) isNeighbour
    · exact step known (List.mem_cons_of_mem _ isKnown) holdsKnown neighbour (List.mem_cons_of_mem _ isAdded)

end Collects

section Components

variable [DecidableEq Node] {neighbours : Node → List Node}

/-- The fuel suffices when it counts the nodes that remain. -/
theorem exists_collects (neighbours : Node → List Node) (fuel : ℕ) :
    ∀ (nodes : List Node) (search : ComponentSearch Node), search.remaining.length ≤ fuel → search.remaining.Nodup →
      ∃ added, Collects neighbours nodes search (visitAll neighbours fuel nodes search) added := by
  induction fuel with
  | zero =>
    intro nodes search enough _
    have isEmpty : search.remaining = [] := List.eq_nil_of_length_eq_zero (Nat.le_zero.mp enough)
    refine ⟨[], ?_⟩
    induction nodes with
    | nil => exact .nil
    | cons node nodes inductionHypothesis =>
      rw [visitAll, List.foldl_cons, if_neg (by simp [isEmpty])]
      exact inductionHypothesis.skip (by simp [isEmpty])
  | succ fuel fuelHypothesis =>
    intro nodes
    induction nodes with
    | nil => exact fun search _ _ => ⟨[], .nil⟩
    | cons node nodes inductionHypothesis =>
      intro search enough distinct
      rw [visitAll, List.foldl_cons, ← visitAll]
      by_cases isRemaining : node ∈ search.remaining
      · rw [if_pos isRemaining]
        have shorter := List.length_erase_of_mem isRemaining
        obtain ⟨added, collects⟩ := fuelHypothesis (neighbours node)
          ⟨search.component ++ [node], search.remaining.erase node⟩ (by simp only; omega) (distinct.erase node)
        have first := collects.take isRemaining distinct
        rw [visit, ← visitAll]
        generalize visitAll neighbours fuel (neighbours node) _ = middle at first
        have fewer : middle.remaining.length ≤ fuel + 1 := by
          have := first.remaining.length_eq
          simp only [List.length_append] at this
          omega
        have ⟨_, distinctRest, _⟩ := List.nodup_append.mp (first.remaining.nodup_iff.mp distinct)
        obtain ⟨moreAdded, rest⟩ := inductionHypothesis middle fewer distinctRest
        exact ⟨node :: added ++ moreAdded, first.append rest⟩
      · rw [if_neg isRemaining]
        obtain ⟨added, collects⟩ := inductionHypothesis search enough distinct
        exact ⟨added, collects.skip isRemaining⟩

/-- All nodes are reached from one of them. -/
def Component (neighbours : Node → List Node) (component : List Node) : Prop :=
  ∃ root ∈ component, ReachedFrom neighbours [root] component

/-- The components partition the nodes, and no node is next to one of a later component. -/
theorem componentsFrom_spec (neighbours : Node → List Node) (fuel : ℕ) : ∀ nodes : List Node, nodes.length ≤ fuel → nodes.Nodup →
    (componentsFrom neighbours fuel nodes).flatten.Perm nodes ∧
      (∀ component ∈ componentsFrom neighbours fuel nodes, Component neighbours component) ∧
        (componentsFrom neighbours fuel nodes).Pairwise fun earlier later =>
          ∀ node ∈ earlier, ∀ other ∈ later, other ∉ neighbours node := by
  induction fuel with
  | zero =>
    intro nodes enough _
    rw [List.eq_nil_of_length_eq_zero (Nat.le_zero.mp enough)]
    simp [componentsFrom]
  | succ fuel inductionHypothesis =>
    intro nodes enough distinct
    cases nodes with
    | nil => simp [componentsFrom]
    | cons node remaining =>
      obtain ⟨added, collects⟩ := exists_collects neighbours (remaining.length + 1) [node]
        ⟨[], node :: remaining⟩ (by simp) distinct
      have isVisit : visitAll neighbours (remaining.length + 1) [node] ⟨[], node :: remaining⟩ =
          visit neighbours (remaining.length + 1) node ⟨[], node :: remaining⟩ := by
        simp [visitAll]
      rw [isVisit] at collects
      have isComponent := collects.component
      rw [List.nil_append] at isComponent
      have isPerm := collects.remaining
      simp only [componentsFrom]
      generalize visit neighbours (remaining.length + 1) node ⟨[], node :: remaining⟩ = search at *
      have inAdded : node ∈ added := by
        cases List.mem_append.mp (isPerm.mem_iff.mp List.mem_cons_self) with
        | inl isAdded => exact isAdded
        | inr stillRemains => exact absurd stillRemains (collects.taken node List.mem_cons_self)
      have ⟨_, distinctRest, _⟩ := List.nodup_append.mp (isPerm.nodup_iff.mp distinct)
      have shorter : search.remaining.length ≤ fuel := by
        have := isPerm.length_eq
        have := List.length_pos_of_mem inAdded
        simp only [List.length_cons, List.length_append] at *
        omega
      obtain ⟨partition, components, separate⟩ := inductionHypothesis search.remaining shorter distinctRest
      rw [isComponent]
      refine ⟨?_, List.forall_mem_cons.mpr ⟨⟨node, inAdded, collects.reached⟩, components⟩,
        List.pairwise_cons.mpr ⟨?_, separate⟩⟩
      · rw [List.flatten_cons]
        exact (partition.append_left added).trans isPerm.symm
      · intro later isLater visited isVisited other isOther isNeighbour
        have stillRemains : other ∈ search.remaining :=
          partition.mem_iff.mp (List.mem_flatten.mpr ⟨later, isLater, isOther⟩)
        exact collects.closed visited isVisited other isNeighbour stillRemains

theorem connectedComponents_perm (nodes : List Node) :
    (connectedComponents neighbours nodes).flatten.Perm nodes.dedup :=
  (componentsFrom_spec neighbours nodes.dedup.length nodes.dedup (Nat.le_refl _) (List.nodup_dedup nodes)).1

theorem component_of_mem {nodes component : List Node} (isComponent : component ∈ connectedComponents neighbours nodes) :
    Component neighbours component :=
  (componentsFrom_spec neighbours nodes.dedup.length nodes.dedup (Nat.le_refl _) (List.nodup_dedup nodes)).2.1 component isComponent

theorem nodup_flatten_connectedComponents (neighbours : Node → List Node) (nodes : List Node) :
    (connectedComponents neighbours nodes).flatten.Nodup :=
  (connectedComponents_perm nodes).nodup_iff.mpr (List.nodup_dedup nodes)

theorem mem_flatten_connectedComponents (neighbours : Node → List Node) {nodes : List Node} {node : Node} :
    (∃ component ∈ connectedComponents neighbours nodes, node ∈ component) ↔ node ∈ nodes := by
  rw [← List.mem_flatten, (connectedComponents_perm nodes).mem_iff, List.mem_dedup]

/-- No edges between the nodes of two lists. -/
def NoEdges (neighbours : Node → List Node) (first second : List Node) : Prop :=
  ∀ node ∈ first, ∀ other ∈ second, other ∉ neighbours node ∧ node ∉ neighbours other

instance : Std.Symm (NoEdges neighbours) where
  symm _ _ noEdges node isNode other isOther := (noEdges other isOther node isNode).symm

/-- When neighbours are neighbours in both directions, the neighbours of a node are in its component. -/
theorem neighbour_mem_component (symmetric : ∀ node other, other ∈ neighbours node → node ∈ neighbours other)
    {nodes component : List Node} (isComponent : component ∈ connectedComponents neighbours nodes) {node other : Node}
    (isNode : node ∈ component) (isNeighbour : other ∈ neighbours node) (within : other ∈ nodes) : other ∈ component := by
  obtain ⟨component', isComponent', isOther⟩ :=
    (mem_flatten_connectedComponents neighbours).mpr within
  by_contra absent
  have different : component ≠ component' := by
    rintro rfl
    exact absent isOther
  have separate :=
    (componentsFrom_spec neighbours nodes.dedup.length nodes.dedup (Nat.le_refl _) (List.nodup_dedup nodes)).2.2
  have noEdges : (connectedComponents neighbours nodes).Pairwise (NoEdges neighbours) := by
    refine separate.imp fun noEdge node isFirst other isSecond => ?_
    exact ⟨noEdge node isFirst other isSecond, fun isNext => noEdge node isFirst other isSecond (symmetric other node isNext)⟩
  exact (noEdges.forall isComponent isComponent' different node isNode other isOther).1 isNeighbour

end Components

end CutPlan.Lib
