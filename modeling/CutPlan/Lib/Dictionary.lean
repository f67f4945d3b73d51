import Mathlib.Data.List.Nodup

/-! # Dictionaries

Dictionaries that remember the order in which their keys were first inserted.
-/

namespace CutPlan.Lib

structure Dictionary (Key Value : Type*) where
  entries : List (Key × Value)
  keysNodup : (entries.map Prod.fst).Nodup

namespace Dictionary

variable {Key Value : Type*} [DecidableEq Key]

def empty : Dictionary Key Value := ⟨[], List.nodup_nil⟩

variable (dictionary : Dictionary Key Value)

def get? (key : Key) : Option Value :=
  (dictionary.entries.find? (·.1 = key)).map Prod.snd

/-- A new key goes to the end, a known one keeps its place. -/
def insertEntries (entries : List (Key × Value)) (key : Key) (value : Value) : List (Key × Value) :=
  if key ∈ entries.map Prod.fst then
    entries.map fun entry => if entry.1 = key then (key, value) else entry
  else entries ++ [(key, value)]

theorem insertEntries_keys (entries : List (Key × Value)) (key : Key) (value : Value) :
    (insertEntries entries key value).map Prod.fst =
      if key ∈ entries.map Prod.fst then entries.map Prod.fst
      else entries.map Prod.fst ++ [key] := by
  unfold insertEntries
  split
  · rw [List.map_map]
    apply List.map_congr_left
    intro entry _
    simp only [Function.comp_apply]
    split
    · rename_i isKey
      exact isKey.symm
    · rfl
  · simp

def insert (key : Key) (value : Value) : Dictionary Key Value where
  entries := insertEntries dictionary.entries key value
  keysNodup := by
    rw [insertEntries_keys]
    split
    · exact dictionary.keysNodup
    · rename_i isNew
      rw [List.nodup_append]
      refine ⟨dictionary.keysNodup, List.nodup_singleton key, ?_⟩
      rintro known isKnown _ isSingle rfl
      rw [List.mem_singleton.mp isSingle] at isKnown
      exact isNew isKnown

def update (entries : List (Key × Value)) : Dictionary Key Value :=
  entries.foldl (fun dictionary entry => dictionary.insert entry.1 entry.2) dictionary

def erase (key : Key) : Dictionary Key Value where
  entries := dictionary.entries.filter (·.1 ≠ key)
  keysNodup := dictionary.keysNodup.sublist (List.filter_sublist.map _)

def filter (keeps : Key × Value → Bool) : Dictionary Key Value where
  entries := dictionary.entries.filter keeps
  keysNodup := dictionary.keysNodup.sublist (List.filter_sublist.map _)

def mapValues (change : Key → Value → Value) : Dictionary Key Value where
  entries := dictionary.entries.map fun entry => (entry.1, change entry.1 entry.2)
  keysNodup := by
    rw [List.map_map]
    exact dictionary.keysNodup

variable {dictionary}

@[simp] theorem entries_empty : (empty : Dictionary Key Value).entries = [] := rfl

@[simp] theorem get?_empty (key : Key) : (empty : Dictionary Key Value).get? key = none := rfl

theorem get?_eq_some {key : Key} {value : Value} :
    dictionary.get? key = some value ↔ (key, value) ∈ dictionary.entries := by
  unfold get?
  constructor
  · intro found
    obtain ⟨entry, isFound, rfl⟩ := Option.map_eq_some_iff.mp found
    have isKey : entry.1 = key := by simpa using List.find?_some isFound
    subst isKey
    exact List.mem_of_find?_eq_some isFound
  · intro isEntry
    have found : ∃ entry, dictionary.entries.find? (·.1 = key) = some entry := by
      rw [← Option.isSome_iff_exists, List.find?_isSome]
      exact ⟨(key, value), isEntry, by simp⟩
    obtain ⟨entry, isFound⟩ := found
    have isKey : entry.1 = key := by simpa using List.find?_some isFound
    -- Keys are distinct, so that no other entry is found.
    have same := List.inj_on_of_nodup_map dictionary.keysNodup (List.mem_of_find?_eq_some isFound) isEntry
      isKey
    rw [isFound, same]
    rfl

theorem get?_eq_none {key : Key} :
    dictionary.get? key = none ↔ ∀ value, (key, value) ∉ dictionary.entries := by
  rw [Option.eq_none_iff_forall_ne_some]
  simp only [ne_eq, get?_eq_some]

theorem ext_get? {key : Key} {other : Dictionary Key Value}
    (same : ∀ value, (key, value) ∈ dictionary.entries ↔ (key, value) ∈ other.entries) :
    dictionary.get? key = other.get? key := by
  apply Option.ext
  intro value
  simp only [Option.mem_def, get?_eq_some, same]

theorem mem_insert {key key' : Key} {value value' : Value} :
    (key', value') ∈ (dictionary.insert key value).entries ↔
      key' = key ∧ value' = value ∨ key' ≠ key ∧ (key', value') ∈ dictionary.entries := by
  unfold insert insertEntries
  dsimp only
  split
  · rename_i isKnown
    rw [List.mem_map]
    constructor
    · rintro ⟨entry, isEntry, same⟩
      split at same
      · cases same
        exact .inl ⟨rfl, rfl⟩
      · rename_i different
        subst same
        exact .inr ⟨different, isEntry⟩
    · rintro (⟨rfl, rfl⟩ | ⟨different, isEntry⟩)
      · obtain ⟨entry, isEntry, isKey⟩ := List.mem_map.mp isKnown
        exact ⟨entry, isEntry, if_pos isKey⟩
      · exact ⟨_, isEntry, if_neg different⟩
  · rename_i isNew
    rw [List.mem_append, List.mem_singleton, Prod.mk.injEq]
    constructor
    · rintro (isEntry | isNewEntry)
      · refine .inr ⟨?_, isEntry⟩
        rintro rfl
        exact isNew (List.mem_map_of_mem (f := Prod.fst) isEntry)
      · exact .inl isNewEntry
    · rintro (isNewEntry | ⟨_, isEntry⟩)
      · exact .inr isNewEntry
      · exact .inl isEntry

@[simp] theorem get?_insert_self (key : Key) (value : Value) :
    (dictionary.insert key value).get? key = some value :=
  get?_eq_some.mpr (mem_insert.mpr (.inl ⟨rfl, rfl⟩))

theorem get?_insert_of_ne {key key' : Key} (different : key' ≠ key) (value : Value) :
    (dictionary.insert key value).get? key' = dictionary.get? key' := by
  apply ext_get?
  intro found
  simp [mem_insert, different]

theorem mem_erase {key key' : Key} {value : Value} :
    (key', value) ∈ (dictionary.erase key).entries ↔ key' ≠ key ∧ (key', value) ∈ dictionary.entries := by
  simp [erase, and_comm]

theorem mem_filter {keeps : Key × Value → Bool} {entry : Key × Value} :
    entry ∈ (dictionary.filter keeps).entries ↔ entry ∈ dictionary.entries ∧ keeps entry = true := by
  simp [filter]

theorem mem_mapValues {change : Key → Value → Value} {key : Key} {value : Value} :
    (key, value) ∈ (dictionary.mapValues change).entries ↔
      ∃ old, (key, old) ∈ dictionary.entries ∧ change key old = value := by
  simp [mapValues]

theorem get?_mapValues (change : Key → Value → Value) (key : Key) :
    (dictionary.mapValues change).get? key = (dictionary.get? key).map (change key) := by
  apply Option.ext
  intro value
  simp only [Option.mem_def, get?_eq_some, mem_mapValues, Option.map_eq_some_iff]

theorem get?_erase_of_ne {key key' : Key} (different : key' ≠ key) :
    (dictionary.erase key).get? key' = dictionary.get? key' :=
  ext_get? fun found => by simp [mem_erase, different]

theorem update_append (first second : List (Key × Value)) :
    dictionary.update (first ++ second) = (dictionary.update first).update second :=
  List.foldl_append

theorem get?_update_of_notMem {key : Key} {entries : List (Key × Value)} (isOther : key ∉ entries.map Prod.fst) :
    (dictionary.update entries).get? key = dictionary.get? key := by
  induction entries generalizing dictionary with
  | nil => rfl
  | cons entry entries inductionHypothesis =>
    rw [List.map_cons, List.mem_cons, not_or] at isOther
    rw [update, List.foldl_cons, ← update, inductionHypothesis isOther.2, get?_insert_of_ne isOther.1]

theorem get?_update_cons {key : Key} (value : Value) {entries : List (Key × Value)}
    (isOther : key ∉ entries.map Prod.fst) :
    (dictionary.update ((key, value) :: entries)).get? key = some value := by
  rw [update, List.foldl_cons, ← update, get?_update_of_notMem isOther, get?_insert_self]

theorem get?_update_of_mem {key : Key} {value : Value} {entries : List (Key × Value)}
    (keysNodup : (entries.map Prod.fst).Nodup) (isEntry : (key, value) ∈ entries) :
    (dictionary.update entries).get? key = some value := by
  obtain ⟨before, after, rfl⟩ := List.append_of_mem isEntry
  rw [update_append]
  apply get?_update_cons
  simp only [List.map_append, List.map_cons] at keysNodup
  exact (List.nodup_cons.mp (List.nodup_append.mp keysNodup).2.1).1

/-- An update with another dictionary. -/
theorem get?_update_entries {key : Key} {value : Value} {other : Dictionary Key Value}
    (isValue : other.get? key = some value) : (dictionary.update other.entries).get? key = some value :=
  get?_update_of_mem other.keysNodup (get?_eq_some.mp isValue)

end Dictionary

end CutPlan.Lib
