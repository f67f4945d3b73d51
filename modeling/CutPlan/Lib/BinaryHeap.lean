import CutPlan.Lib.PriorityQueue
import Mathlib.Data.List.Sort

/-! # Binary heaps in a vector

The entry at position `child` has its parent at `(child - 1) / 2`.  The algorithms that push and
pop are known by their contract only: they rearrange a heap into a heap.  A sorted vector is a heap
as it stands.
-/

namespace CutPlan.Lib

variable {Key Value : Type} [LinearOrder Key]

def IsHeap (vector : List (Key × Value)) : Prop :=
  ∀ child (bound : child < vector.length), ∀ parent, parent = (child - 1) / 2 → 0 < child →
    ∃ upper ∈ vector[parent]?, upper.1 ≤ vector[child].1

abbrev Ascending (vector : List (Key × Value)) : Prop :=
  vector.Pairwise fun first second => first.1 ≤ second.1

theorem IsHeap.nil : IsHeap ([] : List (Key × Value)) := by
  intro child bound
  simp at bound

theorem IsHeap.of_ascending {vector : List (Key × Value)} (ascending : Ascending vector) :
    IsHeap vector := by
  intro child bound parent isParent positive
  have before : parent < child := by omega
  have parentBound : parent < vector.length := before.trans bound
  exact ⟨vector[parent], by simp [parentBound],
    List.pairwise_iff_getElem.mp ascending parent child parentBound bound before⟩

/-- Along the path of parents the keys descend to the front. -/
theorem IsHeap.front_le_getElem {front : Key × Value} {rest : List (Key × Value)}
    (heap : IsHeap (front :: rest)) (position : ℕ) (bound : position < (front :: rest).length) :
    front.1 ≤ (front :: rest)[position].1 := by
  induction position using Nat.strong_induction_on with
  | _ position inductionHypothesis =>
    by_cases first : position = 0
    · subst first
      exact le_refl _
    · have before : (position - 1) / 2 < position := by omega
      obtain ⟨upper, found, below⟩ := heap position bound _ rfl (by omega)
      obtain ⟨parentBound, rfl⟩ := List.getElem?_eq_some_iff.mp found
      exact (inductionHypothesis _ before parentBound).trans below

theorem IsHeap.front_le {front : Key × Value} {rest : List (Key × Value)}
    (heap : IsHeap (front :: rest)) : ∀ entry ∈ front :: rest, front.1 ≤ entry.1 := by
  intro entry member
  obtain ⟨position, bound, rfl⟩ := List.mem_iff_getElem.mp member
  exact heap.front_le_getElem position bound

/-- The contract of `std::push_heap` and `std::pop_heap`.  The pushed entry is at the back before,
and the popped one, the front, is taken away from the back after. -/
structure HeapAlgorithms (Key Value : Type) [LinearOrder Key] where
  pushHeap : List (Key × Value) → List (Key × Value)
  popHeap : List (Key × Value) → List (Key × Value)
  pushHeap_perm : ∀ vector, (pushHeap vector).Perm vector
  pushHeap_isHeap : ∀ vector entry, IsHeap vector → IsHeap (pushHeap (vector ++ [entry]))
  popHeap_eq : ∀ front rest, IsHeap (front :: rest) → ∃ kept, IsHeap kept ∧ kept.Perm rest ∧
    popHeap (front :: rest) = kept ++ [front]

namespace HeapAlgorithms

variable (algorithms : HeapAlgorithms Key Value)

/-- `std::priority_queue` over the algorithms: its vector is a heap at all times. -/
abbrev Heap (Key Value : Type) [LinearOrder Key] : Type :=
  { vector : List (Key × Value) // IsHeap vector }

theorem popHeap_dropLast {front : Key × Value} {rest : List (Key × Value)}
    (heap : IsHeap (front :: rest)) :
    IsHeap (algorithms.popHeap (front :: rest)).dropLast ∧
      (algorithms.popHeap (front :: rest)).dropLast.Perm rest := by
  obtain ⟨kept, keptHeap, keptPerm, popped⟩ := algorithms.popHeap_eq front rest heap
  rw [popped, List.dropLast_concat]
  exact ⟨keptHeap, keptPerm⟩

def push (key : Key) (value : Value) (heap : Heap Key Value) :
    Heap Key Value :=
  ⟨algorithms.pushHeap (heap.1 ++ [(key, value)]),
    algorithms.pushHeap_isHeap heap.1 (key, value) heap.2⟩

def pop : Heap Key Value →
    Option ((Key × Value) × Heap Key Value)
  | ⟨[], _⟩ => none
  | ⟨front :: rest, heap⟩ =>
    some (front, ⟨(algorithms.popHeap (front :: rest)).dropLast,
      (algorithms.popHeap_dropLast heap).1⟩)

def heapQueue : HeapQueue Key Value where
  Heap := Heap Key Value
  empty := ⟨[], .nil⟩
  push := algorithms.push
  pop := algorithms.pop
  entries := fun heap => heap.1
  entries_empty := rfl
  entries_push := fun key value heap => by
    rw [Multiset.cons_coe, Multiset.coe_eq_coe]
    exact (algorithms.pushHeap_perm _).trans (List.perm_append_singleton _ _)
  entries_of_pop_none := by
    intro heap popped
    obtain ⟨vector, isHeap⟩ := heap
    cases vector with
    | nil => rfl
    | cons => simp [pop] at popped
  entries_of_pop_some := by
    intro heap top left popped
    obtain ⟨vector, isHeap⟩ := heap
    cases vector with
    | nil => simp [pop] at popped
    | cons front rest =>
      simp only [pop, Option.some.injEq, Prod.mk.injEq] at popped
      obtain ⟨rfl, rfl⟩ := popped
      rw [Multiset.cons_coe, Multiset.coe_eq_coe]
      exact ((algorithms.popHeap_dropLast isHeap).2.cons front).symm
  le_of_pop_some := by
    intro heap top left popped entry member
    obtain ⟨vector, isHeap⟩ := heap
    cases vector with
    | nil => simp [pop] at popped
    | cons front rest =>
      simp only [pop, Option.some.injEq, Prod.mk.injEq] at popped
      obtain ⟨rfl, rfl⟩ := popped
      have inRest := (algorithms.popHeap_dropLast isHeap).2.mem_iff.mp member
      exact isHeap.front_le entry (List.mem_cons_of_mem front inRest)

def sortByKey (vector : List (Key × Value)) : List (Key × Value) :=
  vector.mergeSort fun first second => first.1 ≤ second.1

theorem sortByKey_ascending (vector : List (Key × Value)) : Ascending (sortByKey vector) := by
  have sorted := @List.pairwise_mergeSort _ (fun (first second : Key × Value) => first.1 ≤ second.1)
    (fun first second third => by simpa using le_trans)
    (fun first second => by simpa using le_total first.1 second.1) vector
  simpa [sortByKey] using sorted

/-- Heaps that are kept sorted meet the contract. -/
def sorting (Key Value : Type) [LinearOrder Key] : HeapAlgorithms Key Value where
  pushHeap := sortByKey
  popHeap := fun vector => sortByKey vector.tail ++ vector.head?.toList
  pushHeap_perm := fun vector => List.mergeSort_perm vector _
  pushHeap_isHeap := fun _ _ _ => .of_ascending (sortByKey_ascending _)
  popHeap_eq := fun _ rest _ =>
    ⟨sortByKey rest, .of_ascending (sortByKey_ascending rest), List.mergeSort_perm rest _, rfl⟩

end HeapAlgorithms

end CutPlan.Lib
