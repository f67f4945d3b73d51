import Mathlib.Algebra.Order.Group.Nat
import Mathlib.Data.List.Basic

/-! # Consecutive numbering

The members of a list that satisfy a predicate are numbered in their order; the others get no number.
-/

namespace CutPlan.Lib

variable {α : Type*} (keep : α → Bool)

def numberKept : ℕ → List α → List (Option ℕ)
  | _, [] => []
  | counter, item :: items =>
    if keep item then some counter :: numberKept (counter + 1) items
    else none :: numberKept counter items

variable {keep}

@[simp] theorem numberKept_length (counter : ℕ) (items : List α) :
    (numberKept keep counter items).length = items.length := by
  induction items generalizing counter with
  | nil => rfl
  | cons item items inductionHypothesis =>
    rw [numberKept]
    split <;> simp [inductionHypothesis]

theorem numberKept_getElem? (counter : ℕ) (items : List α) (index : ℕ) :
    (numberKept keep counter items)[index]? =
      items[index]?.map fun item =>
        if keep item then some (counter + (items.take index).countP keep) else none := by
  induction items generalizing counter index with
  | nil => rfl
  | cons item items inductionHypothesis =>
    rw [numberKept]
    cases index with
    | zero => split <;> rename_i kept <;> simp [kept]
    | succ index =>
      split <;> rename_i kept <;> simp [kept, inductionHypothesis, Nat.add_comm, Nat.add_left_comm]

theorem countP_take_mono {items : List α} {first second : ℕ} (le : first ≤ second) :
    (items.take first).countP keep ≤ (items.take second).countP keep :=
  (List.take_sublist_take_left le).countP_le

/-- The numbers grow along the list. -/
theorem countP_take_lt {items : List α} {first second : ℕ} {item : α} (lt : first < second)
    (isItem : items[first]? = some item) (kept : keep item = true) :
    (items.take first).countP keep < (items.take second).countP keep := by
  have next : (items.take (first + 1)).countP keep = (items.take first).countP keep + 1 := by
    rw [List.take_add_one, List.countP_append, isItem]
    simp [kept]
  have grows : (items.take (first + 1)).countP keep ≤ (items.take second).countP keep :=
    countP_take_mono lt
  omega

theorem countP_take_lt_countP {items : List α} {index : ℕ} {item : α}
    (isItem : items[index]? = some item) (kept : keep item = true) :
    (items.take index).countP keep < items.countP keep := by
  have inside : index < items.length := (List.getElem?_eq_some_iff.mp isItem).1
  have grows := countP_take_lt inside isItem kept
  rwa [List.take_length] at grows

/-- Every number below the count is given to some member. -/
theorem exists_of_lt_countP {items : List α} {number : ℕ} (lt : number < items.countP keep) :
    ∃ index item, items[index]? = some item ∧ keep item = true ∧
      (items.take index).countP keep = number := by
  induction items generalizing number with
  | nil => simp at lt
  | cons item items inductionHypothesis =>
    by_cases kept : keep item = true
    · cases number with
      | zero => exact ⟨0, item, rfl, kept, rfl⟩
      | succ number =>
        rw [List.countP_cons_of_pos kept, Nat.add_lt_add_iff_right] at lt
        obtain ⟨index, found, isFound, foundKept, count⟩ := inductionHypothesis lt
        refine ⟨index + 1, found, isFound, foundKept, ?_⟩
        rw [List.take_succ_cons, List.countP_cons_of_pos kept, count]
    · rw [List.countP_cons_of_neg kept] at lt
      obtain ⟨index, found, isFound, foundKept, count⟩ := inductionHypothesis lt
      refine ⟨index + 1, found, isFound, foundKept, ?_⟩
      rw [List.take_succ_cons, List.countP_cons_of_neg kept, count]

/-! ## Filling a table -/

/-- Writes each value under its number. -/
def placeAll (count : ℕ) (entries : List (ℕ × α)) : List (Option α) :=
  entries.foldl (fun table entry => table.set entry.1 (some entry.2)) (List.replicate count none)

theorem foldl_set_length (entries : List (ℕ × α)) (table : List (Option α)) :
    (entries.foldl (fun table entry => table.set entry.1 (some entry.2)) table).length =
      table.length := by
  induction entries generalizing table with
  | nil => rfl
  | cons entry entries inductionHypothesis =>
    rw [List.foldl_cons, inductionHypothesis, List.length_set]

theorem foldl_set_getElem? {entries : List (ℕ × α)} {number : ℕ}
    (unwritten : ∀ entry ∈ entries, entry.1 ≠ number) (table : List (Option α)) :
    (entries.foldl (fun table entry => table.set entry.1 (some entry.2)) table)[number]? =
      table[number]? := by
  induction entries generalizing table with
  | nil => rfl
  | cons entry entries inductionHypothesis =>
    rw [List.forall_mem_cons] at unwritten
    rw [List.foldl_cons, inductionHypothesis unwritten.2, List.getElem?_set_ne unwritten.1]

theorem placeAll_getElem? {count : ℕ} {entries : List (ℕ × α)}
    (functional : ∀ first ∈ entries, ∀ second ∈ entries, first.1 = second.1 → first = second)
    (within : ∀ entry ∈ entries, entry.1 < count) {entry : ℕ × α} (member : entry ∈ entries) :
    (placeAll count entries)[entry.1]? = some (some entry.2) := by
  unfold placeAll
  have long : (List.replicate count (none : Option α)).length = count := List.length_replicate
  revert long
  generalize List.replicate count (none : Option α) = table
  intro long
  induction entries generalizing table with
  | nil => cases member
  | cons first entries inductionHypothesis =>
    rw [List.forall_mem_cons] at within
    rw [List.foldl_cons]
    by_cases later : entry ∈ entries
    · refine inductionHypothesis (fun one isOne other isOther => ?_) within.2 later _
        (by rw [List.length_set, long])
      exact functional one (List.mem_cons_of_mem _ isOne) other (List.mem_cons_of_mem _ isOther)
    · have isFirst : entry = first := (List.mem_cons.mp member).resolve_right later
      subst isFirst
      have others : ∀ other ∈ entries, other.1 ≠ entry.1 := fun other isOther same =>
        later (functional other (List.mem_cons_of_mem _ isOther) entry List.mem_cons_self same ▸
          isOther)
      rw [foldl_set_getElem? others, List.getElem?_set_self (by omega)]

theorem placeAll_length (count : ℕ) (entries : List (ℕ × α)) :
    (placeAll count entries).length = count := by
  rw [placeAll, foldl_set_length, List.length_replicate]

/-- A table without gaps. -/
theorem mapM_id_of_full {table : List (Option α)} (full : ∀ entry ∈ table, entry ≠ none) :
    ∃ values, table.mapM id = some values ∧ table = values.map some := by
  induction table with
  | nil => exact ⟨[], rfl, rfl⟩
  | cons entry table inductionHypothesis =>
    rw [List.forall_mem_cons] at full
    obtain ⟨values, collects, same⟩ := inductionHypothesis full.2
    cases entry with
    | none => exact absurd rfl full.1
    | some value =>
      refine ⟨value :: values, ?_, by rw [List.map_cons, ← same]⟩
      rw [List.mapM_cons, collects]
      rfl

end CutPlan.Lib
