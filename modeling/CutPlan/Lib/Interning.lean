import Mathlib.Data.List.Nodup

/-! # Interning

A pool gives equal keys one index and different keys different ones.  The index of a key is its
position, and positions do not change.
-/

namespace CutPlan.Lib

variable {Key : Type} [DecidableEq Key]

def intern (pool : List Key) (key : Key) : List Key × ℕ :=
  if key ∈ pool then (pool, pool.idxOf key) else (pool ++ [key], pool.length)

theorem prefix_intern (pool : List Key) (key : Key) : pool <+: (intern pool key).1 := by
  unfold intern
  split
  · exact List.prefix_refl pool
  · exact List.prefix_append pool [key]

theorem nodup_intern {pool : List Key} (nodup : pool.Nodup) (key : Key) :
    (intern pool key).1.Nodup := by
  unfold intern
  split
  · exact nodup
  · rename_i fresh
    exact List.nodup_append.mpr ⟨nodup, List.nodup_singleton key, by
      intro old member new isNew same
      rw [List.mem_singleton] at isNew
      exact fresh (isNew ▸ same ▸ member)⟩

theorem getElem?_intern (pool : List Key) (key : Key) :
    (intern pool key).1[(intern pool key).2]? = some key := by
  unfold intern
  split
  · rename_i member
    simp [List.getElem?_eq_getElem (List.idxOf_lt_length_of_mem member)]
  · simp

/-- What is at a position stays there. -/
theorem getElem?_intern_of_some {pool : List Key} {index : ℕ} {old : Key}
    (found : pool[index]? = some old) (key : Key) : (intern pool key).1[index]? = some old := by
  obtain ⟨rest, extended⟩ := prefix_intern pool key
  rw [← extended, List.getElem?_append_left (List.getElem?_eq_some_iff.mp found).1, found]

omit [DecidableEq Key] in
/-- In a pool without duplicates the positions are as different as the keys. -/
theorem index_eq_iff {pool : List Key} (nodup : pool.Nodup) {first second : ℕ}
    {firstKey secondKey : Key} (firstFound : pool[first]? = some firstKey)
    (secondFound : pool[second]? = some secondKey) : first = second ↔ firstKey = secondKey := by
  obtain ⟨firstBound, rfl⟩ := List.getElem?_eq_some_iff.mp firstFound
  obtain ⟨secondBound, rfl⟩ := List.getElem?_eq_some_iff.mp secondFound
  exact (List.Nodup.getElem_inj_iff nodup).symm

theorem intern_of_not_mem {pool : List Key} {key : Key} (fresh : key ∉ pool) :
    intern pool key = (pool ++ [key], pool.length) := if_neg fresh

theorem intern_of_getElem? {pool : List Key} (nodup : pool.Nodup) {index : ℕ} {key : Key}
    (found : pool[index]? = some key) : intern pool key = (pool, index) := by
  have member : key ∈ pool := List.mem_of_getElem? found
  have kept : (intern pool key).1 = pool := by simp [intern, member]
  have again := getElem?_intern pool key
  rw [kept] at again
  exact Prod.ext kept ((index_eq_iff nodup again found).mpr rfl)

end CutPlan.Lib
