import CutPlan.Lib.Dictionary
import Mathlib.Algebra.BigOperators.Group.List.Basic
import Mathlib.Algebra.Order.BigOperators.Group.List
import Mathlib.Data.List.Induction
import Mathlib.Data.List.Sort

/-! # Running totals

Amounts of the entries of a dictionary are added up.  `Dictionary.adjust` changes one entry, and with it the
total; `Dictionary.accumulate` visits the entries in the order of their keys and lets each of them record the
total so far.
-/

namespace CutPlan.Lib.Dictionary

variable {Key Value : Type*} [DecidableEq Key] {dictionary : Dictionary Key Value} {key : Key}

theorem entries_insert_of_notMem (isNew : dictionary.get? key = none) (value : Value) :
    (dictionary.insert key value).entries = dictionary.entries ++ [(key, value)] := by
  have notKey : key ∉ dictionary.entries.map Prod.fst := by
    intro isKey
    obtain ⟨entry, isEntry, rfl⟩ := List.mem_map.mp isKey
    exact get?_eq_none.mp isNew entry.2 isEntry
  unfold insert insertEntries
  exact if_neg notKey

theorem entries_insert_of_get? {old : Value} (isOld : dictionary.get? key = some old) (value : Value) :
    ∃ before after, dictionary.entries = before ++ (key, old) :: after ∧
      (dictionary.insert key value).entries = before ++ (key, value) :: after := by
  have isEntry := get?_eq_some.mp isOld
  obtain ⟨before, after, split⟩ := List.append_of_mem isEntry
  refine ⟨before, after, split, ?_⟩
  have isKey : key ∈ dictionary.entries.map Prod.fst := List.mem_map_of_mem (f := Prod.fst) isEntry
  have keysNodup := dictionary.keysNodup
  rw [split, List.map_append, List.map_cons, List.nodup_middle, List.nodup_cons, ← List.map_append] at keysNodup
  have unchanged : ∀ entry ∈ before ++ after, (if entry.1 = key then (key, value) else entry) = entry := by
    intro entry isOther
    apply if_neg
    intro same
    exact keysNodup.1 (List.mem_map.mpr ⟨entry, isOther, same⟩)
  unfold insert insertEntries
  simp only [if_pos isKey]
  rw [split, List.map_append, List.map_cons, if_pos rfl,
    List.map_congr_left fun entry isOther => unchanged entry (List.mem_append_left _ isOther), List.map_id',
    List.map_congr_left fun entry isOther => unchanged entry (List.mem_append_right _ isOther), List.map_id']

/-! ## Totals -/

section Totals

variable {M : Type*} [AddCommMonoid M] {amount : Key → Value → M}

def total (amount : Key → Value → M) (dictionary : Dictionary Key Value) : M :=
  (dictionary.entries.map fun entry => amount entry.1 entry.2).sum

omit [DecidableEq Key] in
theorem total_mapValues (change : Key → Value → Value) :
    (dictionary.mapValues change).total amount = dictionary.total fun key value => amount key (change key value) := by
  simp [total, mapValues, List.map_map, Function.comp_def]

omit [DecidableEq Key] in
theorem total_congr {amount' : Key → Value → M}
    (same : ∀ key value, (key, value) ∈ dictionary.entries → amount key value = amount' key value) :
    dictionary.total amount = dictionary.total amount' := by
  apply congrArg List.sum
  exact List.map_congr_left fun entry isEntry => same entry.1 entry.2 isEntry

theorem total_insert_of_notMem (isNew : dictionary.get? key = none) (value : Value) :
    (dictionary.insert key value).total amount = dictionary.total amount + amount key value := by
  simp [total, entries_insert_of_notMem isNew]

variable (amount) in
theorem total_insert_of_get? {old : Value} (isOld : dictionary.get? key = some old) (value : Value) :
    (dictionary.insert key value).total amount + amount key old = dictionary.total amount + amount key value := by
  obtain ⟨before, after, split, inserted⟩ := entries_insert_of_get? isOld value
  simp only [total, split, inserted, List.map_append, List.map_cons, List.sum_append, List.sum_cons]
  ac_rfl

/-- The amount of a single entry. -/
theorem total_single {amount : Value → M} :
    (dictionary.total fun key' value => if key' = key then amount value else 0) =
      (dictionary.get? key).elim 0 amount := by
  rw [total, List.sum_map_ite]
  simp only [List.map_const', List.sum_replicate, nsmul_zero, add_zero]
  cases isValue : dictionary.get? key with
  | none =>
    have noEntry : dictionary.entries.filter (·.1 = key) = [] := by
      rw [List.filter_eq_nil_iff]
      rintro ⟨key', value⟩ isEntry same
      rw [decide_eq_true_eq] at same
      subst same
      exact get?_eq_none.mp isValue value isEntry
    rw [noEntry]
    rfl
  | some value =>
    obtain ⟨before, after, split, _⟩ := entries_insert_of_get? isValue value
    have keysNodup := dictionary.keysNodup
    rw [split, List.map_append, List.map_cons, List.nodup_middle, List.nodup_cons, ← List.map_append] at keysNodup
    have noOther : ∀ entry ∈ before ++ after, ¬ entry.1 = key := by
      intro entry isOther same
      exact keysNodup.1 (List.mem_map.mpr ⟨entry, isOther, same⟩)
    have onlyEntry : dictionary.entries.filter (·.1 = key) = [(key, value)] := by
      rw [split, List.filter_append, List.filter_cons, List.filter_eq_nil_iff.mpr, List.filter_eq_nil_iff.mpr]
      · simp
      · intro entry isAfter
        simpa using noOther entry (List.mem_append_right _ isAfter)
      · intro entry isBefore
        simpa using noOther entry (List.mem_append_left _ isBefore)
    rw [onlyEntry]
    simp

/-- The entry of the key, or a fresh one, is changed in place. -/
def adjust (fresh : Value) (change : Value → Value) (key : Key) (dictionary : Dictionary Key Value) :
    Dictionary Key Value :=
  dictionary.insert key (change ((dictionary.get? key).getD fresh))

variable {fresh : Value} {change : Value → Value}

theorem get?_adjust_self :
    (dictionary.adjust fresh change key).get? key = some (change ((dictionary.get? key).getD fresh)) :=
  get?_insert_self _ _

theorem get?_adjust_of_ne {key' : Key} (different : key' ≠ key) :
    (dictionary.adjust fresh change key).get? key' = dictionary.get? key' :=
  get?_insert_of_ne different _

theorem isSome_get?_adjust {key' : Key} : ((dictionary.adjust fresh change key).get? key').isSome ↔
    (dictionary.get? key').isSome ∨ key = key' := by
  by_cases same : key' = key
  · subst same
    simp [get?_adjust_self]
  · simp [get?_adjust_of_ne same, Ne.symm same]

/-- What the changes keep and fresh entries lack stays as it is. -/
theorem elim_get?_adjust {R : Type*} {read : Value → R} {missing : R} (lacks : read fresh = missing)
    (keeps : ∀ value, read (change value) = read value) (key' : Key) :
    ((dictionary.adjust fresh change key).get? key').elim missing read = (dictionary.get? key').elim missing read := by
  by_cases same : key' = key
  · subst same
    rw [get?_adjust_self, Option.elim_some, keeps]
    cases dictionary.get? key' with
    | none => exact lacks
    | some value => rfl
  · rw [get?_adjust_of_ne same]

/-- One adjustment for each item of a list. -/
def adjustAll {Item : Type*} (keyOf : Item → Key) (freshOf : Item → Value) (changeOf : Item → Value → Value)
    (items : List Item) (dictionary : Dictionary Key Value) : Dictionary Key Value :=
  items.foldl (fun dictionary item => dictionary.adjust (freshOf item) (changeOf item) (keyOf item)) dictionary

variable {Item : Type*} {keyOf : Item → Key} {freshOf : Item → Value} {changeOf : Item → Value → Value}

theorem isSome_get?_adjustAll (items : List Item) :
    ((dictionary.adjustAll keyOf freshOf changeOf items).get? key).isSome ↔
      (dictionary.get? key).isSome ∨ ∃ item ∈ items, keyOf item = key := by
  induction items generalizing dictionary with
  | nil => simp [adjustAll]
  | cons item items inductionHypothesis =>
    rw [adjustAll, List.foldl_cons, ← adjustAll, inductionHypothesis, isSome_get?_adjust]
    simp [or_assoc]

theorem elim_get?_adjustAll {R : Type*} (read : Value → R) (missing : R)
    (lacks : ∀ item, read (freshOf item) = missing)
    (keeps : ∀ item value, read (changeOf item value) = read value) (items : List Item) :
    ((dictionary.adjustAll keyOf freshOf changeOf items).get? key).elim missing read =
      (dictionary.get? key).elim missing read := by
  induction items generalizing dictionary with
  | nil => rfl
  | cons item items inductionHypothesis =>
    rw [adjustAll, List.foldl_cons, ← adjustAll, inductionHypothesis, elim_get?_adjust (lacks item) (keeps item)]

end Totals

section Adjusted

variable {M : Type*} [AddCancelCommMonoid M] {amount : Key → Value → M} {fresh : Value} {change : Value → Value}

/-- A change that adds to the amount of an entry adds as much to the total. -/
theorem total_adjust {added : M} (nothing : amount key fresh = 0)
    (adds : ∀ value, amount key (change value) = amount key value + added) :
    (dictionary.adjust fresh change key).total amount = dictionary.total amount + added := by
  rw [adjust]
  cases isOld : dictionary.get? key with
  | none => rw [total_insert_of_notMem isOld, Option.getD_none, adds, nothing, zero_add]
  | some old =>
    have balance := total_insert_of_get? amount isOld (change old)
    rw [adds, add_comm (amount key old), ← add_assoc] at balance
    exact add_right_cancel balance

theorem total_adjustAll {Item : Type*} {keyOf : Item → Key} {freshOf : Item → Value}
    {changeOf : Item → Value → Value} {added : Item → M}
    (nothing : ∀ item, amount (keyOf item) (freshOf item) = 0)
    (adds : ∀ item value, amount (keyOf item) (changeOf item value) = amount (keyOf item) value + added item)
    (items : List Item) :
    (dictionary.adjustAll keyOf freshOf changeOf items).total amount =
      dictionary.total amount + (items.map added).sum := by
  induction items generalizing dictionary with
  | nil => simp [adjustAll]
  | cons item items inductionHypothesis =>
    rw [adjustAll, List.foldl_cons, ← adjustAll, inductionHypothesis, total_adjust (nothing item) (adds item),
      List.map_cons, List.sum_cons, add_assoc]

end Adjusted

section Increased

variable {M : Type*} [AddCommMonoid M] [PartialOrder M] [IsOrderedCancelAddMonoid M] {amount : Key → Value → M}

/-- A total does not fall when an entry is replaced by one with a larger amount. -/
theorem total_le_insert {value : Value} (larger : (dictionary.get? key).elim 0 (amount key) ≤ amount key value) :
    dictionary.total amount ≤ (dictionary.insert key value).total amount := by
  cases isOld : dictionary.get? key with
  | none =>
    rw [isOld] at larger
    rw [total_insert_of_notMem isOld]
    exact le_add_of_nonneg_right larger
  | some old =>
    rw [isOld, Option.elim_some] at larger
    apply le_of_add_le_add_right (a := amount key old)
    rw [total_insert_of_get? amount isOld]
    exact add_le_add_right larger _

end Increased

/-! ## Running totals -/

section RunningTotals

variable {Key : Type*} [LinearOrder Key] {Value M : Type*} [AddCommMonoid M]

/-- The keys in increasing order. -/
def sortedKeys (dictionary : Dictionary Key Value) : List Key :=
  (dictionary.entries.map Prod.fst).mergeSort (· ≤ ·)

/-- The entry of the key adds its amount to the sum, and records the sum. -/
def accumulateKey (amount : Value → M) (record : M → Value → Value) (state : Dictionary Key Value × M)
    (key : Key) : Dictionary Key Value × M :=
  match state.1.get? key with
  | none => state
  | some value =>
    let sum := state.2 + amount value
    (state.1.insert key (record sum value), sum)

def accumulate (amount : Value → M) (record : M → Value → Value) (dictionary : Dictionary Key Value) :
    Dictionary Key Value :=
  (dictionary.sortedKeys.foldl (accumulateKey amount record) (dictionary, 0)).1

/-- The sum of the amounts of all entries up to a key. -/
def totalUpTo (amount : Value → M) (dictionary : Dictionary Key Value) (key : Key) : M :=
  ((dictionary.entries.filter fun entry => entry.1 ≤ key).map fun entry => amount entry.2).sum

variable {amount : Value → M} {record : M → Value → Value} {dictionary : Dictionary Key Value} {key : Key}

variable (dictionary) in
theorem sortedKeys_perm : dictionary.sortedKeys.Perm (dictionary.entries.map Prod.fst) :=
  List.mergeSort_perm _ _

variable (dictionary) in
theorem sortedKeys_sorted : dictionary.sortedKeys.Pairwise (· < ·) := by
  have ordered : dictionary.sortedKeys.Pairwise (· ≤ ·) := by
    have pairwise : dictionary.sortedKeys.Pairwise fun first second => decide (first ≤ second) = true := by
      apply List.pairwise_mergeSort
      · simpa using fun _ _ _ => le_trans
      · simpa using le_total
    exact pairwise.imp of_decide_eq_true
  have distinct : dictionary.sortedKeys.Nodup := dictionary.sortedKeys_perm.nodup_iff.mpr dictionary.keysNodup
  exact (List.pairwise_and_iff.mpr ⟨ordered, distinct⟩).imp fun both => lt_of_le_of_ne both.1 both.2

theorem insert_mapValues {value : Value} (isValue : dictionary.get? key = some value)
    (change : Key → Value → Value) (changed : Value) :
    (dictionary.mapValues change).insert key changed =
      dictionary.mapValues fun key' value' => if key' = key then changed else change key' value' := by
  have isKey : key ∈ (dictionary.mapValues change).entries.map Prod.fst := by
    simp only [mapValues, List.map_map]
    exact List.mem_map.mpr ⟨_, get?_eq_some.mp isValue, rfl⟩
  unfold insert insertEntries
  simp only [if_pos isKey]
  simp only [mapValues, List.map_map, mk.injEq]
  apply List.map_congr_left
  intro entry _
  by_cases same : entry.1 = key
  · simp [same]
  · simp [same]

/-- The amount of the entry of a key. -/
def amountAt (amount : Value → M) (dictionary : Dictionary Key Value) (key : Key) : M :=
  (dictionary.get? key).elim 0 amount

theorem totalUpTo_eq_sortedKeys :
    dictionary.totalUpTo amount key =
      ((dictionary.sortedKeys.filter (· ≤ key)).map (dictionary.amountAt amount)).sum := by
  have permuted := (dictionary.sortedKeys_perm.filter (· ≤ key)).map (dictionary.amountAt amount)
  rw [permuted.sum_eq, List.filter_map, List.map_map, totalUpTo]
  apply congrArg List.sum
  apply List.map_congr_left
  intro entry isEntry
  have isValue : dictionary.get? entry.1 = some entry.2 := get?_eq_some.mpr (List.mem_of_mem_filter isEntry)
  simp [amountAt, isValue]

theorem totalUpTo_of_split {before after : List Key} (split : dictionary.sortedKeys = before ++ key :: after) :
    dictionary.totalUpTo amount key =
      (before.map (dictionary.amountAt amount)).sum + dictionary.amountAt amount key := by
  have sorted := dictionary.sortedKeys_sorted
  rw [split, List.pairwise_append, List.pairwise_cons] at sorted
  obtain ⟨_, ⟨keyFirst, _⟩, beforeFirst⟩ := sorted
  have upToKey : (before ++ key :: after).filter (· ≤ key) = before ++ [key] := by
    rw [List.filter_append, List.filter_cons, List.filter_eq_self.mpr, List.filter_eq_nil_iff.mpr]
    · simp
    · intro other isAfter
      simpa using keyFirst other isAfter
    · intro other isBefore
      simpa using (beforeFirst other isBefore key List.mem_cons_self).le
  rw [totalUpTo_eq_sortedKeys, split, upToKey]
  simp

/-- The state of the loop when the keys `before` have been visited. -/
theorem foldl_accumulateKey {before after : List Key} (split : dictionary.sortedKeys = before ++ after) :
    before.foldl (accumulateKey amount record) (dictionary, 0) =
      (dictionary.mapValues fun key value =>
          if key ∈ before then record (dictionary.totalUpTo amount key) value else value,
        (before.map (dictionary.amountAt amount)).sum) := by
  induction before using List.reverseRecOn generalizing after with
  | nil => simp [mapValues]
  | append_singleton before key inductionHypothesis =>
    rw [List.append_assoc, List.singleton_append] at split
    have isKey : key ∈ dictionary.entries.map Prod.fst := by
      rw [← dictionary.sortedKeys_perm.mem_iff, split]
      simp
    obtain ⟨⟨known, value⟩, isEntry, same⟩ := List.mem_map.mp isKey
    have isValue : dictionary.get? key = some value := by
      rw [← same, get?_eq_some.mpr isEntry]
    have isNew : key ∉ before := by
      intro isOld
      have sorted := dictionary.sortedKeys_sorted
      rw [split, List.pairwise_append] at sorted
      exact lt_irrefl _ (sorted.2.2 key isOld key List.mem_cons_self)
    rw [List.foldl_concat, inductionHypothesis split, accumulateKey]
    simp only [get?_mapValues, isValue, Option.map_some]
    simp only [if_neg isNew]
    rw [insert_mapValues isValue]
    have amountIs : amount value = dictionary.amountAt amount key := by
      rw [amountAt, isValue, Option.elim_some]
    rw [amountIs, ← totalUpTo_of_split split]
    refine Prod.ext ?_ ?_
    · -- The entries of the keys before this one keep their records.
      simp only [mapValues, mk.injEq]
      apply List.map_congr_left
      rintro ⟨key', value'⟩ isEntry'
      by_cases same : key' = key
      · subst same
        have sameValue : value' = value := Option.some.inj ((get?_eq_some.mpr isEntry').symm.trans isValue)
        simp [sameValue]
      · simp [same]
    · rw [totalUpTo_of_split split, List.map_append, List.sum_append, List.map_singleton, List.sum_singleton]

/-- Every entry records the sum of the amounts of all entries up to its key. -/
theorem accumulate_eq : dictionary.accumulate amount record =
    dictionary.mapValues fun key => record (dictionary.totalUpTo amount key) := by
  rw [accumulate, foldl_accumulateKey (List.append_nil dictionary.sortedKeys).symm]
  simp only [mapValues, mk.injEq]
  apply List.map_congr_left
  intro entry isEntry
  rw [if_pos (dictionary.sortedKeys_perm.mem_iff.mpr (List.mem_map_of_mem isEntry))]

/-- A total over the entries up to a key, as a total over all entries. -/
theorem totalUpTo_eq_total : dictionary.totalUpTo amount key =
    dictionary.total fun key' value => if key' ≤ key then amount value else 0 := by
  rw [totalUpTo, total, List.sum_map_ite]
  simp

end RunningTotals

end CutPlan.Lib.Dictionary
