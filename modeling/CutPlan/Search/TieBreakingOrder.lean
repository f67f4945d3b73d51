import CutPlan.Search.OpenList
import Mathlib.Data.List.Lex

/-! # The order in which the tie-breaking list returns its entries

The list keeps a counter beside its buckets.  An observer who writes down what is inserted and
crosses out what is returned holds the entries present, oldest first.
-/

namespace CutPlan.Search

structure TieBreakingOpenList (S : Type) where
  buckets : List (Key × List S) := []
  size : ℕ := 0

namespace TieBreakingOpenList

variable {S : Type}

/-- `do_insertion` once the evaluators have given the key. -/
def doInsertion (key : Key) (entry : S) (queue : TieBreakingOpenList S) : TieBreakingOpenList S where
  buckets := TieBreakingBuckets.pushBack key entry queue.buckets
  size := queue.size + 1

def empty (queue : TieBreakingOpenList S) : Bool := queue.size = 0

def removeMin (queue : TieBreakingOpenList S) : Option (S × Key × TieBreakingOpenList S) :=
  match queue.buckets with
  | [] => none
  | (_, []) :: _ => none
  | (key, result :: bucket) :: rest =>
    let buckets := if bucket.isEmpty then rest else (key, bucket) :: rest
    some (result, key, { buckets := buckets, size := queue.size - 1 })

inductive Operation (S : Type) where
  | insert (key : Key) (entry : S)
  | removeMin

/-- The list beside the entries that were inserted and have not been returned, oldest first. -/
structure Observed (S : Type) where
  queue : TieBreakingOpenList S := {}
  present : List (Key × S) := []

namespace Observed

variable [DecidableEq S]

def step (observed : Observed S) : Operation S → Observed S
  | .insert key entry =>
    { queue := observed.queue.doInsertion key entry
      present := observed.present ++ [(key, entry)] }
  | .removeMin =>
    match observed.queue.removeMin with
    | none => observed
    | some (entry, key, rest) =>
      { queue := rest, present := observed.present.erase (key, entry) }

def run (operations : List (Operation S)) : Observed S := operations.foldl step {}

end Observed

/-! ## Buckets hold the entries of their key in order of insertion -/

/-- The contents of the bucket of a key. -/
def held (key : Key) (buckets : List (Key × List S)) : List S :=
  (buckets.filter fun bucket => bucket.1 = key).flatMap Prod.snd

/-- The entries of a key in order of insertion. -/
def entriesOf (key : Key) (present : List (Key × S)) : List S :=
  (present.filter fun item => item.1 = key).map Prod.snd

abbrev Increasing (buckets : List (Key × List S)) : Prop :=
  buckets.Pairwise fun left right => left.1 < right.1

@[simp] theorem held_nil (key : Key) : held key ([] : List (Key × List S)) = [] := rfl

theorem held_cons (key first : Key) (bucket : List S) (rest : List (Key × List S)) :
    held key ((first, bucket) :: rest) =
      if first = key then bucket ++ held key rest else held key rest := by
  unfold held
  by_cases same : first = key <;> simp [same]

theorem held_eq_nil {key : Key} {buckets : List (Key × List S)}
    (above : ∀ bucket ∈ buckets, key < bucket.1) : held key buckets = [] := by
  have absent : (buckets.filter fun bucket => bucket.1 = key) = [] := by
    apply List.filter_eq_nil_iff.mpr
    intro bucket member
    simpa using (above bucket member).ne'
  simp [held, absent]

theorem entriesOf_append (key : Key) (present : List (Key × S)) (first : Key) (entry : S) :
    entriesOf key (present ++ [(first, entry)]) =
      if first = key then entriesOf key present ++ [entry] else entriesOf key present := by
  unfold entriesOf
  by_cases same : first = key <;> simp [same]

theorem entriesOf_erase [DecidableEq S] (key first : Key) (entry : S) (present : List (Key × S)) :
    entriesOf key (present.erase (first, entry)) =
      if first = key then (entriesOf key present).erase entry else entriesOf key present := by
  induction present with
  | nil => simp [entriesOf]
  | cons head rest inductionHypothesis =>
    obtain ⟨headKey, headEntry⟩ := head
    by_cases same : (headKey, headEntry) = (first, entry)
    · cases same
      by_cases asked : first = key <;> simp [entriesOf, asked]
    · rw [List.erase_cons_tail (by simpa using same)]
      by_cases asked : first = key
      · subst asked
        simp only [if_true] at inductionHypothesis ⊢
        by_cases here : headKey = first
        · subst here
          have other : headEntry ≠ entry := fun equal => same (by rw [equal])
          simp only [entriesOf, decide_true, List.filter_cons_of_pos, List.map_cons] at *
          rw [List.erase_cons_tail (by simpa using other), inductionHypothesis]
        · simpa [entriesOf, here] using inductionHypothesis
      · simp only [asked, if_false] at inductionHypothesis ⊢
        by_cases here : headKey = key <;> simp_all [entriesOf]

theorem pushBack_keys (key : Key) (entry : S) {bound : Key} {buckets : List (Key × List S)}
    (boundKey : bound < key) (above : ∀ bucket ∈ buckets, bound < bucket.1) :
    ∀ bucket ∈ TieBreakingBuckets.pushBack key entry buckets, bound < bucket.1 := by
  induction buckets with
  | nil => simpa [TieBreakingBuckets.pushBack] using boundKey
  | cons head rest inductionHypothesis =>
    obtain ⟨first, bucket⟩ := head
    simp only [List.forall_mem_cons] at above
    unfold TieBreakingBuckets.pushBack
    split
    · exact List.forall_mem_cons.mpr above
    · split
      · exact List.forall_mem_cons.mpr ⟨boundKey, List.forall_mem_cons.mpr above⟩
      · exact List.forall_mem_cons.mpr ⟨above.1, inductionHypothesis above.2⟩

theorem Increasing.pushBack {buckets : List (Key × List S)} (increasing : Increasing buckets)
    (key : Key) (entry : S) : Increasing (TieBreakingBuckets.pushBack key entry buckets) := by
  induction buckets with
  | nil => simp [TieBreakingBuckets.pushBack]
  | cons head rest inductionHypothesis =>
    obtain ⟨first, bucket⟩ := head
    obtain ⟨above, restIncreasing⟩ := List.pairwise_cons.mp increasing
    unfold TieBreakingBuckets.pushBack
    split
    · exact List.pairwise_cons.mpr ⟨above, restIncreasing⟩
    · rename_i different
      split
      · rename_i before
        apply List.pairwise_cons.mpr
        constructor
        · exact List.forall_mem_cons.mpr
            ⟨before, fun later member => before.trans (above later member)⟩
        · exact increasing
      · rename_i after
        have later : first < key := lt_of_le_of_ne (not_lt.mp after) different
        exact List.pairwise_cons.mpr
          ⟨pushBack_keys key entry later above, inductionHypothesis restIncreasing⟩

theorem held_pushBack {buckets : List (Key × List S)} (increasing : Increasing buckets)
    (key asked : Key) (entry : S) :
    held asked (TieBreakingBuckets.pushBack key entry buckets) =
      if key = asked then held asked buckets ++ [entry] else held asked buckets := by
  induction buckets with
  | nil => by_cases same : key = asked <;> simp [TieBreakingBuckets.pushBack, held_cons, same]
  | cons head rest inductionHypothesis =>
    obtain ⟨first, bucket⟩ := head
    obtain ⟨above, restIncreasing⟩ := List.pairwise_cons.mp increasing
    have step := inductionHypothesis restIncreasing
    unfold TieBreakingBuckets.pushBack
    split
    · rename_i same
      subst same
      by_cases here : first = asked
      · subst here
        simp [held_cons, held_eq_nil above]
      · simp [held_cons, here]
    · rename_i different
      split
      · rename_i before
        have none : held key ((first, bucket) :: rest) = [] := by
          apply held_eq_nil
          exact List.forall_mem_cons.mpr
            ⟨before, fun later member => before.trans (above later member)⟩
        rw [held_cons asked key]
        by_cases here : key = asked
        · subst here
          simp [none]
        · simp [here]
      · rw [held_cons, held_cons, step]
        by_cases here : key = asked
        · subst here
          simp [different]
        · simp [here]

/-! ## The invariant of the operations -/

structure Represents (queue : TieBreakingOpenList S) (present : List (Key × S)) : Prop where
  increasing : Increasing queue.buckets
  nonempty : ∀ bucket ∈ queue.buckets, bucket.2 ≠ []
  held_eq : ∀ key, held key queue.buckets = entriesOf key present
  size_eq : queue.size = present.length

theorem Represents.initial : Represents ({} : TieBreakingOpenList S) [] where
  increasing := .nil
  nonempty := by simp
  held_eq := fun _ => rfl
  size_eq := rfl

theorem Represents.doInsertion {queue : TieBreakingOpenList S} {present : List (Key × S)}
    (represents : Represents queue present) (key : Key) (entry : S) :
    Represents (queue.doInsertion key entry) (present ++ [(key, entry)]) where
  increasing := represents.increasing.pushBack key entry
  nonempty := TieBreakingBuckets.pushBack_nonempty key entry queue.buckets represents.nonempty
  held_eq := fun asked => by
    rw [TieBreakingOpenList.doInsertion, held_pushBack represents.increasing, entriesOf_append,
      represents.held_eq asked]
  size_eq := by simp [TieBreakingOpenList.doInsertion, represents.size_eq]

theorem entriesOf_eq_nil_iff {key : Key} {present : List (Key × S)} :
    entriesOf key present = [] ↔ ∀ item ∈ present, item.1 ≠ key := by
  simp [entriesOf, List.filter_eq_nil_iff]

theorem mem_of_entriesOf_cons {key : Key} {entry : S} {present : List (Key × S)} {later : List S}
    (entries : entriesOf key present = entry :: later) : (key, entry) ∈ present := by
  have member : entry ∈ entriesOf key present := by simp [entries]
  simpa [entriesOf] using member

/-- Every key present has a bucket, so the first bucket has the least key. -/
theorem Represents.key_le {queue : TieBreakingOpenList S} {present : List (Key × S)}
    (represents : Represents queue present) {key : Key} {bucket : List S}
    {rest : List (Key × List S)} (first : queue.buckets = (key, bucket) :: rest) :
    ∀ other ∈ present, key ≤ other.1 := by
  intro other member
  by_contra less
  have increasing := represents.increasing
  rw [first] at increasing
  have above := (List.pairwise_cons.mp increasing).1
  have none : held other.1 queue.buckets = [] := by
    rw [first]
    apply held_eq_nil
    exact List.forall_mem_cons.mpr
      ⟨not_le.mp less, fun later laterMember => (not_le.mp less).trans (above later laterMember)⟩
  rw [represents.held_eq, entriesOf_eq_nil_iff] at none
  exact none other member rfl

theorem find_of_entriesOf_cons {key : Key} {entry : S} {present : List (Key × S)} {later : List S}
    (entries : entriesOf key present = entry :: later) :
    present.find? (fun item => item.1 = key) = some (key, entry) := by
  rw [← List.head?_filter]
  cases filtered : present.filter fun item => item.1 = key with
  | nil => simp [entriesOf, filtered] at entries
  | cons head rest =>
    have sameKey : head.1 = key := by
      have member : head ∈ present.filter fun item => item.1 = key := by simp [filtered]
      simpa using (List.mem_filter.mp member).2
    simp only [entriesOf, filtered, List.map_cons, List.cons.injEq] at entries
    simp [← sameKey, ← entries.1]

/-- What `remove_min` answers and leaves, against the entries present. -/
inductive Removal [DecidableEq S] (queue : TieBreakingOpenList S) (present : List (Key × S)) : Prop
  | none (removed : queue.removeMin = .none) (absent : present = [])
  | some (entry : S) (key : Key) (rest : TieBreakingOpenList S)
      (removed : queue.removeMin = .some (entry, key, rest))
      (member : (key, entry) ∈ present)
      (least : ∀ other ∈ present, key ≤ other.1)
      (oldest : present.find? (fun item => item.1 = key) = .some (key, entry))
      (represents : Represents rest (present.erase (key, entry)))

theorem Represents.removal [DecidableEq S] {queue : TieBreakingOpenList S}
    {present : List (Key × S)} (represents : Represents queue present) :
    Removal queue present := by
  cases contents : queue.buckets with
  | nil =>
    apply Removal.none
    · simp [removeMin, contents]
    · apply List.eq_nil_iff_forall_not_mem.mpr
      intro item member
      have none := represents.held_eq item.1
      rw [contents, held_nil, eq_comm, entriesOf_eq_nil_iff] at none
      exact none item member rfl
  | cons head rest =>
    obtain ⟨key, bucket⟩ := head
    have increasing := represents.increasing
    have nonempty := represents.nonempty
    rw [contents] at increasing nonempty
    obtain ⟨above, restIncreasing⟩ := List.pairwise_cons.mp increasing
    obtain ⟨occupied, restNonempty⟩ := List.forall_mem_cons.mp nonempty
    have heldEq := represents.held_eq
    rw [contents] at heldEq
    cases bucket with
    | nil => exact absurd rfl occupied
    | cons entry later =>
      have entries : entriesOf key present = entry :: later := by
        rw [← heldEq key]
        simp [held_cons, held_eq_nil above]
      have member := mem_of_entriesOf_cons entries
      -- an emptied bucket is erased; a bucket with entries left keeps its place
      have heldAfter : ∀ asked, held asked (if later.isEmpty then rest else (key, later) :: rest) =
          entriesOf asked (present.erase (key, entry)) := by
        intro asked
        rw [entriesOf_erase, ← heldEq asked]
        cases later with
        | nil =>
          by_cases here : key = asked <;>
            simp [held_cons, here]
        | cons next later =>
          by_cases here : key = asked <;>
            simp [held_cons, here]
      apply Removal.some entry key
        { buckets := if later.isEmpty then rest else (key, later) :: rest, size := queue.size - 1 }
      · simp [removeMin, contents]
      · exact member
      · exact represents.key_le contents
      · exact find_of_entriesOf_cons entries
      · constructor
        · dsimp only
          split
          · exact restIncreasing
          · exact List.pairwise_cons.mpr ⟨above, restIncreasing⟩
        · dsimp only
          split
          · exact restNonempty
          · rename_i more
            exact List.forall_mem_cons.mpr ⟨by simpa using more, restNonempty⟩
        · exact heldAfter
        · rw [List.length_erase_of_mem member, ← represents.size_eq]

namespace Observed

variable [DecidableEq S]

theorem step_represents {observed : Observed S}
    (represents : Represents observed.queue observed.present) (operation : Operation S) :
    Represents (observed.step operation).queue (observed.step operation).present := by
  cases operation with
  | insert key entry => exact represents.doInsertion key entry
  | removeMin =>
    cases represents.removal with
    | none removed absent => simpa [step, removed] using represents
    | some entry key rest removed member least oldest left => simpa [step, removed] using left

theorem run_represents (operations : List (Operation S)) :
    Represents (run operations).queue (run operations).present := by
  have fromState : ∀ observed : Observed S, Represents observed.queue observed.present →
      Represents (operations.foldl step observed).queue (operations.foldl step observed).present := by
    induction operations with
    | nil => exact fun _ represents => represents
    | cons operation rest inductionHypothesis =>
      intro observed represents
      exact inductionHypothesis _ (step_represents represents operation)
  exact fromState {} .initial

/-- After any operations the list holds the entries present: its counter is right, no bucket is
empty, and `remove_min` returns the oldest entry of the least key with that key. -/
theorem removeMin_exact (operations : List (Operation S)) :
    let observed := run operations
    observed.queue.size = observed.present.length ∧
      (observed.queue.empty = true ↔ observed.present = []) ∧
      (∀ bucket ∈ observed.queue.buckets, bucket.2 ≠ []) ∧
      match observed.queue.removeMin with
      | none => observed.present = []
      | some (entry, key, _) =>
        (∀ other ∈ observed.present, key ≤ other.1) ∧
          observed.present.find? (fun item => item.1 = key) = some (key, entry) := by
  intro observed
  have represents := run_represents operations
  refine ⟨represents.size_eq, ?_, represents.nonempty, ?_⟩
  · simp [empty, observed, represents.size_eq]
  · cases represents.removal with
    | none removed absent => simpa [observed, removed] using absent
    | some entry key rest removed member least oldest left =>
      simpa [observed, removed] using And.intro least oldest

end Observed

/-! ## The list that the search keeps -/

/-- The queue of the search is this list with its invariant. -/
def Refines (queue : TieBreakingBuckets S) (list : TieBreakingOpenList S) : Prop :=
  queue.buckets = list.buckets ∧ queue.size = list.size

theorem Refines.push {queue : TieBreakingBuckets S} {list : TieBreakingOpenList S}
    (refines : Refines queue list) (key : Key) (entry : S) :
    Refines (queue.push key entry) (list.doInsertion key entry) := by
  constructor
  · simp [TieBreakingBuckets.push, doInsertion, refines.1]
  · rw [TieBreakingBuckets.size_eq_card, TieBreakingBuckets.push_entries, Multiset.card_cons,
      ← TieBreakingBuckets.size_eq_card, refines.2, doInsertion]

theorem Refines.removeMin {queue rest : TieBreakingBuckets S} {list : TieBreakingOpenList S}
    {entry : S} {key : Key} (refines : Refines queue list)
    (removed : queue.removeMin = some (entry, key, rest)) :
    ∃ left, list.removeMin = some (entry, key, left) ∧ Refines rest left := by
  have counted : rest.size = queue.size - 1 := by
    rw [TieBreakingBuckets.size_eq_card, TieBreakingBuckets.size_eq_card,
      TieBreakingBuckets.removeMin_entries removed, Multiset.card_cons, Nat.add_sub_cancel]
  obtain ⟨same, sizes⟩ := refines
  rw [sizes] at counted
  obtain ⟨buckets, nonempty⟩ := queue
  match buckets with
  | [] => simp [TieBreakingBuckets.removeMin] at removed
  | (_, []) :: _ => simp [TieBreakingBuckets.removeMin] at removed
  | (first, [only]) :: tail =>
    simp only [TieBreakingBuckets.removeMin, Option.some.injEq, Prod.mk.injEq] at removed
    obtain ⟨rfl, rfl, rfl⟩ := removed
    exact ⟨{ buckets := tail, size := list.size - 1 },
      by simp [TieBreakingOpenList.removeMin, ← same], rfl, counted⟩
  | (first, head :: next :: bucket) :: tail =>
    simp only [TieBreakingBuckets.removeMin, Option.some.injEq, Prod.mk.injEq] at removed
    obtain ⟨rfl, rfl, rfl⟩ := removed
    exact ⟨{ buckets := (first, next :: bucket) :: tail, size := list.size - 1 },
      by simp [TieBreakingOpenList.removeMin, ← same], rfl, counted⟩

end TieBreakingOpenList

end CutPlan.Search
