import Mathlib.Data.Finset.Card
import Mathlib.Data.Finset.SDiff
import Mathlib.Data.List.Dedup

/-! # Exploration with a worklist

Vertices that are found for the first time are put on a stack; each vertex is expanded when it is taken
from there.  With enough fuel the vertices found are closed under the edges of the graph.
-/

namespace CutPlan.Lib

variable {Vertex : Type*} [DecidableEq Vertex] (next : Vertex → List Vertex)

def newNeighbours (reached : List Vertex) (vertex : Vertex) : List Vertex :=
  ((next vertex).filter (· ∉ reached)).dedup

def explore : ℕ → List Vertex → List Vertex → List Vertex
  | 0, _, reached => reached
  | _ + 1, [], reached => reached
  | fuel + 1, vertex :: stack, reached =>
    let found := newNeighbours next reached vertex
    explore fuel (found ++ stack) (reached ++ found)

variable {next}

theorem mem_newNeighbours {reached : List Vertex} {vertex neighbour : Vertex} :
    neighbour ∈ newNeighbours next reached vertex ↔ neighbour ∈ next vertex ∧ neighbour ∉ reached := by
  simp [newNeighbours]

/-- What the loop keeps: nothing is found twice, and a vertex that has left the stack has had its
neighbours found. -/
structure Explored (next : Vertex → List Vertex) (vertexSet : Finset Vertex)
    (stack reached : List Vertex) : Prop where
  nodup : reached.Nodup
  within : ∀ vertex ∈ reached, vertex ∈ vertexSet
  stacked : ∀ vertex ∈ stack, vertex ∈ reached
  closed : ∀ vertex ∈ reached, vertex ∉ stack → ∀ neighbour ∈ next vertex, neighbour ∈ reached

variable {vertexSet : Finset Vertex}

omit [DecidableEq Vertex] in
theorem Explored.start {roots : List Vertex} (distinct : roots.Nodup)
    (areVertices : ∀ root ∈ roots, root ∈ vertexSet) : Explored next vertexSet roots roots where
  nodup := distinct
  within := areVertices
  stacked := fun _ member => member
  closed := fun _ member unstacked => absurd member unstacked

theorem Explored.expand (edges : ∀ vertex ∈ vertexSet, ∀ neighbour ∈ next vertex, neighbour ∈ vertexSet)
    {vertex : Vertex} {stack reached : List Vertex}
    (explored : Explored next vertexSet (vertex :: stack) reached) :
    Explored next vertexSet (newNeighbours next reached vertex ++ stack)
      (reached ++ newNeighbours next reached vertex) where
  nodup := by
    refine explored.nodup.append (List.nodup_dedup _) ?_
    intro neighbour old found
    exact (mem_newNeighbours.mp found).2 old
  within := by
    intro neighbour member
    cases List.mem_append.mp member with
    | inl old => exact explored.within neighbour old
    | inr found =>
      have isVertex := explored.within vertex (explored.stacked vertex List.mem_cons_self)
      exact edges vertex isVertex neighbour (mem_newNeighbours.mp found).1
  stacked := by
    intro neighbour member
    cases List.mem_append.mp member with
    | inl found => exact List.mem_append_right _ found
    | inr old => exact List.mem_append_left _ (explored.stacked neighbour (List.mem_cons_of_mem _ old))
  closed := by
    intro other member unstacked neighbour isNeighbour
    rw [List.mem_append, not_or] at unstacked
    have old : other ∈ reached := by
      cases List.mem_append.mp member with
      | inl old => exact old
      | inr found => exact absurd found unstacked.1
    by_cases isTop : other = vertex
    · subst isTop
      by_cases known : neighbour ∈ reached
      · exact List.mem_append_left _ known
      · exact List.mem_append_right _ (mem_newNeighbours.mpr ⟨isNeighbour, known⟩)
    · exact List.mem_append_left _
        (explored.closed other old (by simp [isTop, unstacked.2]) neighbour isNeighbour)

theorem explore_explored
    (edges : ∀ vertex ∈ vertexSet, ∀ neighbour ∈ next vertex, neighbour ∈ vertexSet)
    {fuel : ℕ} {stack reached : List Vertex} (explored : Explored next vertexSet stack reached)
    (enough : stack.length + (vertexSet.card - reached.length) ≤ fuel) :
    Explored next vertexSet [] (explore next fuel stack reached) ∧
      ∀ vertex ∈ reached, vertex ∈ explore next fuel stack reached := by
  induction fuel generalizing stack reached with
  | zero =>
    have empty : stack = [] := List.length_eq_zero_iff.mp (by omega)
    subst empty
    exact ⟨explored, fun _ member => member⟩
  | succ fuel inductionHypothesis =>
    cases stack with
    | nil => exact ⟨explored, fun _ member => member⟩
    | cons vertex stack =>
      have expanded := explored.expand edges
      have fits := Finset.card_le_card (s := (reached ++ newNeighbours next reached vertex).toFinset)
        (t := vertexSet) fun vertex member => expanded.within vertex (List.mem_toFinset.mp member)
      rw [List.toFinset_card_of_nodup expanded.nodup, List.length_append] at fits
      obtain ⟨complete, grows⟩ := inductionHypothesis expanded (by
        simp only [List.length_append, List.length_cons] at enough ⊢
        omega)
      exact ⟨complete, fun old member => grows old (List.mem_append_left _ member)⟩

/-- The exploration from some roots finds the roots and is closed under the edges. -/
theorem explore_closed
    (edges : ∀ vertex ∈ vertexSet, ∀ neighbour ∈ next vertex, neighbour ∈ vertexSet)
    {roots : List Vertex} (distinct : roots.Nodup) (areVertices : ∀ root ∈ roots, root ∈ vertexSet)
    {fuel : ℕ} (enough : vertexSet.card ≤ fuel) :
    Explored next vertexSet [] (explore next fuel roots roots) ∧
      ∀ root ∈ roots, root ∈ explore next fuel roots roots := by
  have fits := Finset.card_le_card (s := roots.toFinset) (t := vertexSet)
    fun root member => areVertices root (List.mem_toFinset.mp member)
  rw [List.toFinset_card_of_nodup distinct] at fits
  exact explore_explored edges (Explored.start distinct areVertices) (by omega)

/-- What is found has every property that the roots have and that the edges keep. -/
theorem explore_sound (good : Vertex → Prop)
    (closed : ∀ vertex, good vertex → ∀ neighbour ∈ next vertex, good neighbour) (fuel : ℕ)
    {stack reached : List Vertex} (stacked : ∀ vertex ∈ stack, good vertex)
    (start : ∀ vertex ∈ reached, good vertex) :
    ∀ vertex ∈ explore next fuel stack reached, good vertex := by
  induction fuel generalizing stack reached with
  | zero => exact start
  | succ fuel inductionHypothesis =>
    cases stack with
    | nil => exact start
    | cons vertex stack =>
      rw [List.forall_mem_cons] at stacked
      have found : ∀ neighbour ∈ newNeighbours next reached vertex, good neighbour :=
        fun neighbour member =>
          closed vertex stacked.1 neighbour (mem_newNeighbours.mp member).1
      exact inductionHypothesis
        (fun other member => (List.mem_append.mp member).elim (found other) (stacked.2 other))
        (fun other member => (List.mem_append.mp member).elim (start other) (found other))

end CutPlan.Lib
