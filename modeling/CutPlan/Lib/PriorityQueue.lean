import Mathlib.Data.Multiset.Basic
import Mathlib.Order.Lattice

/-! # Priority queues

A priority queue by what its operations do to the multiset of its entries; which of several least
entries is popped is left to the implementation.  A list that is kept sorted is one implementation.
-/

namespace CutPlan.Lib

structure HeapQueue (Key Value : Type) [LE Key] where
  Heap : Type
  empty : Heap
  push : Key → Value → Heap → Heap
  pop : Heap → Option ((Key × Value) × Heap)
  entries : Heap → Multiset (Key × Value)
  entries_empty : entries empty = 0
  entries_push : ∀ key value heap, entries (push key value heap) = (key, value) ::ₘ entries heap
  entries_of_pop_none : ∀ heap, pop heap = none → entries heap = 0
  entries_of_pop_some : ∀ heap top rest, pop heap = some (top, rest) →
    entries heap = top ::ₘ entries rest
  le_of_pop_some : ∀ heap top rest, pop heap = some (top, rest) →
    ∀ entry ∈ entries rest, top.1 ≤ entry.1

namespace HeapQueue

variable {Key Value : Type} [LinearOrder Key]

/-- A list of entries with keys in ascending order. -/
structure SortedEntries (Key Value : Type) [LinearOrder Key] where
  list : List (Key × Value)
  sorted : list.Pairwise fun first second => first.1 ≤ second.1

def insertEntry (key : Key) (value : Value) : List (Key × Value) → List (Key × Value)
  | [] => [(key, value)]
  | entry :: rest =>
    if key < entry.1 then (key, value) :: entry :: rest else entry :: insertEntry key value rest

theorem insertEntry_perm (key : Key) (value : Value) (list : List (Key × Value)) :
    (insertEntry key value list).Perm ((key, value) :: list) := by
  induction list with
  | nil => exact .refl _
  | cons entry rest inductionHypothesis =>
    unfold insertEntry
    split
    · exact .refl _
    · exact (inductionHypothesis.cons entry).trans (.swap _ _ _)

theorem insertEntry_sorted (key : Key) (value : Value) {list : List (Key × Value)}
    (sorted : list.Pairwise fun first second => first.1 ≤ second.1) :
    (insertEntry key value list).Pairwise fun first second => first.1 ≤ second.1 := by
  induction list with
  | nil => simp [insertEntry]
  | cons entry rest inductionHypothesis =>
    obtain ⟨least, restSorted⟩ := List.pairwise_cons.mp sorted
    unfold insertEntry
    split
    · rename_i smaller
      refine List.pairwise_cons.mpr ⟨fun other member => ?_, sorted⟩
      cases List.mem_cons.mp member with
      | inl isHead => exact isHead ▸ smaller.le
      | inr inRest => exact smaller.le.trans (least other inRest)
    · rename_i notSmaller
      refine List.pairwise_cons.mpr ⟨fun other member => ?_, inductionHypothesis restSorted⟩
      cases List.mem_cons.mp ((insertEntry_perm key value rest).mem_iff.mp member) with
      | inl isNew => exact isNew ▸ not_lt.mp notSmaller
      | inr inRest => exact least other inRest

/-- The queue that pops the entry that was pushed first among the least ones. -/
def sorted (Key Value : Type) [LinearOrder Key] : HeapQueue Key Value where
  Heap := SortedEntries Key Value
  empty := ⟨[], .nil⟩
  push := fun key value heap =>
    ⟨insertEntry key value heap.list, insertEntry_sorted key value heap.sorted⟩
  pop := fun heap =>
    match heap with
    | ⟨[], _⟩ => none
    | ⟨top :: rest, isSorted⟩ => some (top, ⟨rest, isSorted.tail⟩)
  entries := fun heap => heap.list
  entries_empty := rfl
  entries_push := fun key value heap => Multiset.coe_eq_coe.mpr (insertEntry_perm key value heap.list)
  entries_of_pop_none := by
    rintro ⟨list, isSorted⟩ popped
    cases list with
    | nil => rfl
    | cons => simp at popped
  entries_of_pop_some := by
    rintro ⟨list, isSorted⟩ top rest popped
    cases list with
    | nil => simp at popped
    | cons head tail =>
      simp only [Option.some.injEq, Prod.mk.injEq] at popped
      obtain ⟨rfl, rfl⟩ := popped
      rfl
  le_of_pop_some := by
    rintro ⟨list, isSorted⟩ top rest popped entry member
    cases list with
    | nil => simp at popped
    | cons head tail =>
      simp only [Option.some.injEq, Prod.mk.injEq] at popped
      obtain ⟨rfl, rfl⟩ := popped
      exact (List.pairwise_cons.mp isSorted).1 entry member

end HeapQueue

end CutPlan.Lib
