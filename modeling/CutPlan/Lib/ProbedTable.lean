import Mathlib.Algebra.Group.Fin.Basic
import Mathlib.Algebra.GroupWithZero.Nat
import Mathlib.Data.List.FinRange

/-! # Tables with linear probing

A table with a fixed number of slots.  An entry is looked for from the slot of its hash on, until its key or a free
slot is found.  Entries are never removed, only replaced, and they are replaced only while every slot is occupied, so
that no free slot ever comes before an entry.
-/

namespace CutPlan.Lib

namespace ProbedTable

variable {Key Entry : Type*} {capacity : ℕ}

def probes (first : Fin capacity) : List (Fin capacity) := (List.finRange capacity).map (first + ·)

theorem mem_probes [NeZero capacity] (first index : Fin capacity) : index ∈ probes first :=
  List.mem_map.mpr ⟨index - first, List.mem_finRange _, by simp⟩

theorem nodup_probes [NeZero capacity] (first : Fin capacity) : (probes first).Nodup :=
  (List.nodup_finRange capacity).map fun _ _ same => add_left_cancel same

variable (keyOf : Entry → Key) (hash : Key → Fin capacity)

def Absent (slots : Fin capacity → Option Entry) (key : Key) : Prop :=
  ∀ index entry, slots index = some entry → keyOf entry ≠ key

def Full (slots : Fin capacity → Option Entry) : Prop := ∀ index, slots index ≠ none

/-- Keys are distinct, and all slots that are probed before an entry is found are occupied. -/
structure Sound (slots : Fin capacity → Option Entry) : Prop where
  distinct : ∀ {first second : Fin capacity} {entry other : Entry}, slots first = some entry →
    slots second = some other → keyOf entry = keyOf other → first = second
  reached : ∀ {index : Fin capacity} {entry : Entry}, slots index = some entry → ∀ {before after : List (Fin capacity)},
    probes (hash (keyOf entry)) = before ++ index :: after → ∀ other ∈ before, slots other ≠ none

variable {keyOf hash} {slots slots' : Fin capacity → Option Entry} {key : Key} {index : Fin capacity}

theorem sound_empty : Sound keyOf hash (fun _ => (none : Option Entry)) where
  distinct isEntry := by cases isEntry
  reached isEntry := by cases isEntry

/-- What keeps every key in its slot keeps a table sound. -/
theorem Sound.of_keys (sound : Sound keyOf hash slots) (same : ∀ index, (slots' index).map keyOf = (slots index).map keyOf) :
    Sound keyOf hash slots' := by
  have source : ∀ {index : Fin capacity} {entry : Entry}, slots' index = some entry →
      ∃ old, slots index = some old ∧ keyOf old = keyOf entry := by
    intro index entry isEntry
    have keys := same index
    rw [isEntry, Option.map_some] at keys
    exact Option.map_eq_some_iff.mp keys.symm
  constructor
  case distinct =>
    intro first second entry other isEntry isOther sameKey
    obtain ⟨old, isOld, oldKey⟩ := source isEntry
    obtain ⟨otherOld, isOtherOld, otherKey⟩ := source isOther
    exact sound.distinct isOld isOtherOld (by rw [oldKey, otherKey, sameKey])
  case reached =>
    intro index entry isEntry before after split other isBefore isFree
    obtain ⟨old, isOld, oldKey⟩ := source isEntry
    rw [← oldKey] at split
    have keys := same other
    rw [isFree, Option.map_none] at keys
    exact sound.reached isOld split other isBefore (Option.map_eq_none_iff.mp keys.symm)

/-- A new key is put into a slot that no search for an entry needs free. -/
theorem Sound.insert (sound : Sound keyOf hash slots) {entry : Entry} (absent : Absent keyOf slots (keyOf entry))
    (before : ∀ {before after : List (Fin capacity)}, probes (hash (keyOf entry)) = before ++ index :: after →
      ∀ other ∈ before, slots other ≠ none) :
    Sound keyOf hash (Function.update slots index (some entry)) := by
  constructor
  case distinct =>
    intro first second found other isFound isOther same
    by_cases atFirst : first = index <;> by_cases atSecond : second = index
    · rw [atFirst, atSecond]
    · rw [atFirst, Function.update_self, Option.some.injEq] at isFound
      rw [Function.update_of_ne atSecond] at isOther
      exact absurd (isFound ▸ same).symm (absent second other isOther)
    · rw [Function.update_of_ne atFirst] at isFound
      rw [atSecond, Function.update_self, Option.some.injEq] at isOther
      exact absurd (isOther ▸ same) (absent first found isFound)
    · rw [Function.update_of_ne atFirst] at isFound
      rw [Function.update_of_ne atSecond] at isOther
      exact sound.distinct isFound isOther same
  case reached =>
    intro slot found isFound earlier later split other isBefore
    have occupied : slots other ≠ none → Function.update slots index (some entry) other ≠ none := by
      by_cases atIndex : other = index
      · simp [atIndex]
      · simp [Function.update_of_ne atIndex]
    by_cases atSlot : slot = index
    · rw [atSlot, Function.update_self, Option.some.injEq] at isFound
      rw [atSlot, ← isFound] at split
      exact occupied (before split other isBefore)
    · rw [Function.update_of_ne atSlot] at isFound
      exact occupied (sound.reached isFound split other isBefore)

theorem Sound.insert_full (sound : Sound keyOf hash slots) {entry : Entry} (absent : Absent keyOf slots (keyOf entry))
    (full : Full slots) (index : Fin capacity) : Sound keyOf hash (Function.update slots index (some entry)) :=
  sound.insert absent fun _ other _ => full other

/-! ## Searches -/

section Find

variable [DecidableEq Key]

variable (keyOf hash) in
/-- A search ends at its key and at free slots. -/
def stops (slots : Fin capacity → Option Entry) (key : Key) (index : Fin capacity) : Bool :=
  match slots index with
  | some entry => keyOf entry = key
  | none => true

variable (keyOf hash) in
def findSlot (slots : Fin capacity → Option Entry) (key : Key) : Option (Fin capacity) :=
  (probes (hash key)).find? (stops keyOf slots key)

variable [NeZero capacity]

/-- The slot of an entry is found from its key. -/
theorem Sound.findSlot_eq (sound : Sound keyOf hash slots) {entry : Entry} (isEntry : slots index = some entry) :
    findSlot keyOf hash slots (keyOf entry) = some index := by
  obtain ⟨before, after, split⟩ := List.append_of_mem (mem_probes (hash (keyOf entry)) index)
  refine List.find?_eq_some_iff_append.mpr ⟨by simp [stops, isEntry], before, after, split, ?_⟩
  intro other isBefore
  obtain ⟨found, isFound⟩ := Option.ne_none_iff_exists'.mp (sound.reached isEntry split other isBefore)
  have different : keyOf found ≠ keyOf entry := by
    intro same
    have nodup := nodup_probes (hash (keyOf entry))
    rw [split, List.nodup_append] at nodup
    exact nodup.2.2 other isBefore index List.mem_cons_self (sound.distinct isFound isEntry same)
  simp [stops, isFound, different]

/-- For a key that is absent, the search ends at the first free slot. -/
theorem findSlot_absent (absent : Absent keyOf slots key) (found : findSlot keyOf hash slots key = some index) :
    slots index = none ∧
      ∃ before after, probes (hash key) = before ++ index :: after ∧ ∀ other ∈ before, slots other ≠ none := by
  obtain ⟨ends, before, after, split, passed⟩ := List.find?_eq_some_iff_append.mp found
  have free : slots index = none := by
    cases isEntry : slots index with
    | none => rfl
    | some entry =>
      simp only [stops, isEntry, decide_eq_true_eq] at ends
      exact absurd ends (absent index entry isEntry)
  refine ⟨free, before, after, split, fun other isBefore isFree => ?_⟩
  have ended := passed other isBefore
  simp [stops, isFree] at ended

theorem full_of_findSlot_eq_none (none : findSlot keyOf hash slots key = none) : Full slots := by
  intro index isFree
  have passed := List.find?_eq_none.mp none index (mem_probes _ _)
  simp [stops, isFree] at passed

theorem Sound.insert_free (sound : Sound keyOf hash slots) {entry : Entry} (absent : Absent keyOf slots (keyOf entry))
    (found : findSlot keyOf hash slots (keyOf entry) = some index) :
    Sound keyOf hash (Function.update slots index (some entry)) := by
  obtain ⟨_, before, after, split, occupied⟩ := findSlot_absent absent found
  refine sound.insert absent fun {earlier later} otherSplit other isBefore => ?_
  -- The slots of a search are distinct, so that its part before a slot is unique.
  have nodup := nodup_probes (hash (keyOf entry))
  rw [otherSplit] at nodup split
  obtain ⟨_, nodupLater, apart⟩ := List.nodup_append.mp nodup
  have notEarlier : index ∉ earlier := fun isMember => apart index isMember index List.mem_cons_self rfl
  have same := (List.append_cons_inj_of_notMem notEarlier (List.nodup_cons.mp nodupLater).1).mp split
  exact occupied other (same.1 ▸ isBefore)

end Find

end ProbedTable

end CutPlan.Lib
