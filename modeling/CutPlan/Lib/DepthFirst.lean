import Mathlib.Data.Finset.Card
import Mathlib.Data.Finset.SDiff
import Mathlib.Logic.Relation

/-! # Marking by depth-first search

The search marks every unmarked neighbour of a vertex and continues from there.  With enough fuel the
vertices marked from a list of roots are those reachable from a root.
-/

namespace CutPlan.Lib

variable {Vertex : Type*} [DecidableEq Vertex] (next : Vertex → List Vertex)

/-- Marks what can be reached from the neighbours of a vertex. -/
def dfs : ℕ → Vertex → Finset Vertex → Finset Vertex
  | 0, _, marked => marked
  | fuel + 1, vertex, marked =>
    (next vertex).foldl
      (fun marked neighbour =>
        if neighbour ∈ marked then marked else dfs fuel neighbour (insert neighbour marked)) marked

/-- Marks the unmarked vertices of a list and continues from each of them. -/
def markAll (fuel : ℕ) (vertices : List Vertex) (marked : Finset Vertex) : Finset Vertex :=
  vertices.foldl
    (fun marked vertex =>
      if vertex ∈ marked then marked else dfs next fuel vertex (insert vertex marked)) marked

variable {next}

theorem dfs_succ (fuel : ℕ) (vertex : Vertex) (marked : Finset Vertex) :
    dfs next (fuel + 1) vertex marked = markAll next fuel (next vertex) marked := rfl

@[simp] theorem markAll_nil (fuel : ℕ) (marked : Finset Vertex) :
    markAll next fuel [] marked = marked := rfl

theorem markAll_cons_of_mem {vertex : Vertex} {marked : Finset Vertex} (isMarked : vertex ∈ marked)
    (fuel : ℕ) (vertices : List Vertex) :
    markAll next fuel (vertex :: vertices) marked = markAll next fuel vertices marked := by
  simp [markAll, isMarked]

theorem markAll_cons_of_notMem {vertex : Vertex} {marked : Finset Vertex}
    (unmarked : vertex ∉ marked) (fuel : ℕ) (vertices : List Vertex) :
    markAll next fuel (vertex :: vertices) marked =
      markAll next fuel vertices (dfs next fuel vertex (insert vertex marked)) := by
  simp [markAll, unmarked]

def Reaches (next : Vertex → List Vertex) : Vertex → Vertex → Prop :=
  Relation.ReflTransGen fun vertex neighbour => neighbour ∈ next vertex

/-! ## Soundness -/

theorem markAll_sound (good : Vertex → Prop)
    (closed : ∀ vertex, good vertex → ∀ neighbour ∈ next vertex, good neighbour) (fuel : ℕ)
    (vertices : List Vertex) (marked : Finset Vertex) (start : ∀ vertex ∈ vertices, good vertex)
    (before : ∀ vertex ∈ marked, good vertex) :
    ∀ vertex ∈ markAll next fuel vertices marked, good vertex := by
  induction fuel generalizing vertices marked with
  | zero =>
    induction vertices generalizing marked with
    | nil => simpa using before
    | cons vertex vertices inductionHypothesis =>
      rw [List.forall_mem_cons] at start
      by_cases isMarked : vertex ∈ marked
      · rw [markAll_cons_of_mem isMarked]
        exact inductionHypothesis marked start.2 before
      · rw [markAll_cons_of_notMem isMarked]
        exact inductionHypothesis _ start.2 (Finset.forall_mem_insert _ _ _ |>.mpr ⟨start.1, before⟩)
  | succ fuel fuelHypothesis =>
    induction vertices generalizing marked with
    | nil => simpa using before
    | cons vertex vertices inductionHypothesis =>
      rw [List.forall_mem_cons] at start
      by_cases isMarked : vertex ∈ marked
      · rw [markAll_cons_of_mem isMarked]
        exact inductionHypothesis marked start.2 before
      · rw [markAll_cons_of_notMem isMarked, dfs_succ]
        refine inductionHypothesis _ start.2 ?_
        exact fuelHypothesis _ _ (closed vertex start.1)
          (Finset.forall_mem_insert _ _ _ |>.mpr ⟨start.1, before⟩)

/-! ## Completeness -/

/-- Everything marked anew has its neighbours marked as well. -/
structure ClosedExtension (next : Vertex → List Vertex) (vertices : List Vertex)
    (before after : Finset Vertex) : Prop where
  grows : before ⊆ after
  listed : ∀ vertex ∈ vertices, vertex ∈ after
  closed : ∀ vertex ∈ after, vertex ∉ before → ∀ neighbour ∈ next vertex, neighbour ∈ after

theorem ClosedExtension.cons {vertex : Vertex} {vertices : List Vertex}
    {before middle after : Finset Vertex}
    (first : ClosedExtension next (next vertex) (insert vertex before) middle)
    (rest : ClosedExtension next vertices middle after) :
    ClosedExtension next (vertex :: vertices) before after where
  grows := (Finset.subset_insert vertex before).trans (first.grows.trans rest.grows)
  listed := List.forall_mem_cons.mpr
    ⟨rest.grows (first.grows (Finset.mem_insert_self vertex before)), rest.listed⟩
  closed := by
    intro marked member unmarked neighbour isNeighbour
    by_cases early : marked ∈ middle
    · apply rest.grows
      by_cases same : marked = vertex
      · exact first.listed neighbour (same ▸ isNeighbour)
      · exact first.closed marked early (by simp [same, unmarked]) neighbour isNeighbour
    · exact rest.closed marked member early neighbour isNeighbour

theorem markAll_closed {vertexSet : Finset Vertex}
    (within : ∀ vertex, ∀ neighbour ∈ next vertex, neighbour ∈ vertexSet) (fuel : ℕ)
    (vertices : List Vertex) (marked : Finset Vertex) (listed : ∀ vertex ∈ vertices, vertex ∈ vertexSet)
    (enough : (vertexSet \ marked).card ≤ fuel) :
    ClosedExtension next vertices marked (markAll next fuel vertices marked) := by
  induction fuel generalizing vertices marked with
  | zero =>
    have allMarked : ∀ vertex ∈ vertexSet, vertex ∈ marked := by
      have none := Finset.card_eq_zero.mp (Nat.le_zero.mp enough)
      exact Finset.sdiff_eq_empty_iff_subset.mp none
    have same : markAll next 0 vertices marked = marked := by
      induction vertices with
      | nil => rfl
      | cons vertex vertices inductionHypothesis =>
        rw [List.forall_mem_cons] at listed
        rw [markAll_cons_of_mem (allMarked vertex listed.1)]
        exact inductionHypothesis listed.2
    rw [same]
    exact ⟨Finset.Subset.refl _, fun vertex member => allMarked vertex (listed vertex member),
      fun vertex member unmarked => absurd member unmarked⟩
  | succ fuel fuelHypothesis =>
    induction vertices generalizing marked with
    | nil =>
      exact ⟨Finset.Subset.refl _, by simp, fun vertex member unmarked => absurd member unmarked⟩
    | cons vertex vertices inductionHypothesis =>
      rw [List.forall_mem_cons] at listed
      by_cases isMarked : vertex ∈ marked
      · rw [markAll_cons_of_mem isMarked]
        have rest := inductionHypothesis marked listed.2 enough
        exact ⟨rest.grows, List.forall_mem_cons.mpr ⟨rest.grows isMarked, rest.listed⟩, rest.closed⟩
      · have fewer : (vertexSet \ insert vertex marked).card ≤ fuel := by
          have smaller : (vertexSet \ insert vertex marked).card < (vertexSet \ marked).card := by
            refine Finset.card_lt_card (Finset.ssubset_iff_of_subset ?_ |>.mpr ⟨vertex, ?_, ?_⟩)
            · exact Finset.sdiff_subset_sdiff (Finset.Subset.refl _) (Finset.subset_insert _ _)
            · exact Finset.mem_sdiff.mpr ⟨listed.1, isMarked⟩
            · simp
          omega
        have first := fuelHypothesis (next vertex) (insert vertex marked) (within vertex) fewer
        rw [markAll_cons_of_notMem isMarked, dfs_succ]
        refine first.cons (inductionHypothesis _ listed.2 ?_)
        have shrinks : (vertexSet \ markAll next fuel (next vertex) (insert vertex marked)).card ≤
            (vertexSet \ insert vertex marked).card :=
          Finset.card_le_card (Finset.sdiff_subset_sdiff (Finset.Subset.refl _) first.grows)
        omega

/-- Starting with nothing marked, the search marks what is reachable from the roots. -/
theorem mem_markAll_iff (vertexSet : Finset Vertex) {roots : List Vertex} {fuel : ℕ}
    (within : ∀ vertex, ∀ neighbour ∈ next vertex, neighbour ∈ vertexSet)
    (rootsWithin : ∀ root ∈ roots, root ∈ vertexSet) (enough : vertexSet.card ≤ fuel)
    (vertex : Vertex) :
    vertex ∈ markAll next fuel roots ∅ ↔ ∃ root ∈ roots, Reaches next root vertex := by
  constructor
  · refine markAll_sound (fun vertex => ∃ root ∈ roots, Reaches next root vertex) ?_ fuel roots
      ∅ (fun root member => ⟨root, member, .refl⟩) (by simp) vertex
    rintro vertex ⟨root, isRoot, reaches⟩ neighbour isNeighbour
    exact ⟨root, isRoot, reaches.tail isNeighbour⟩
  · rintro ⟨root, isRoot, reaches⟩
    have closed := markAll_closed within fuel roots ∅ rootsWithin (by simpa using enough)
    induction reaches with
    | refl => exact closed.listed root isRoot
    | tail _ isNeighbour inductionHypothesis =>
      exact closed.closed _ inductionHypothesis (by simp) _ isNeighbour

end CutPlan.Lib
