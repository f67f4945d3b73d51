import Mathlib.Data.List.Induction

/-! # Tables filled by updates

The entry of a table after a sequence of updates is the last one under its key.
-/

namespace CutPlan.Lib

theorem foldl_update_apply {Key Entry Value : Type*} [DecidableEq Key] (key : Entry → Key)
    (value : Entry → Value) (entries : List Entry) (start : Key → Value) (target : Key) :
    entries.foldl (fun table entry => Function.update table (key entry) (value entry)) start target =
      match (entries.filter fun entry => key entry = target).getLast? with
      | some entry => value entry
      | none => start target := by
  induction entries using List.reverseRecOn with
  | nil => rfl
  | append_singleton entries entry inductionHypothesis =>
    rw [List.foldl_append, List.foldl_cons, List.foldl_nil, List.filter_append]
    by_cases own : key entry = target
    · rw [← own, Function.update_self]
      simp
    · rw [Function.update_of_ne (Ne.symm own), inductionHypothesis]
      simp [own]

theorem filter_eq_singleton {Entry : Type*} {isOwn : Entry → Bool} {entries : List Entry}
    {entry : Entry} (member : entry ∈ entries) (own : isOwn entry = true)
    (once : entries.countP isOwn ≤ 1) : entries.filter isOwn = [entry] := by
  have present : entry ∈ entries.filter isOwn := List.mem_filter.mpr ⟨member, own⟩
  rw [List.countP_eq_length_filter] at once
  cases filtered : entries.filter isOwn with
  | nil =>
    rw [filtered] at present
    cases present
  | cons first rest =>
    rw [filtered, List.length_cons] at once
    rw [filtered] at present
    have empty : rest = [] := List.length_eq_zero_iff.mp (by omega)
    subst empty
    rw [List.mem_singleton.mp present]

theorem countP_pos_of_getLast {Entry : Type*} {isOwn : Entry → Bool} {entries : List Entry}
    {entry : Entry} (isLast : (entries.filter isOwn).getLast? = some entry) :
    entry ∈ entries ∧ isOwn entry = true ∧ 0 < entries.countP isOwn := by
  have member := List.mem_filter.mp (List.mem_of_getLast? isLast)
  exact ⟨member.1, member.2, List.countP_pos_iff.mpr ⟨entry, member⟩⟩

end CutPlan.Lib
