import CutPlan.Lib.BinaryHeap
import Mathlib.Algebra.Order.Floor.Semiring
import Mathlib.Data.NNRat.Floor
import Mathlib.Data.List.TakeWhile
import Mathlib.Data.Multiset.AddSub
import Mathlib.Tactic

/-! # Adaptive queues

A queue starts with a bucket for each whole number and changes to a heap when a key asks for more
buckets than there were pushes.  The buckets answer with the number of the bucket, so a key with a
fractional part is lost in them; integer keys, and all keys once the heap is there, come back as
they were pushed.
-/

namespace CutPlan.Search

open CutPlan.Lib (Ascending HeapAlgorithms HeapQueue)

abbrev Entry (Value : Type) := ℚ≥0 × Value

structure BucketQueue (Value : Type) where
  buckets : List (List Value) := []
  currentBucketNo : ℕ := 0
  numEntries : ℕ := 0
  numPushes : ℕ := 0

namespace BucketQueue

variable {Value : Type}

def minBucketsBeforeSwitch : ℕ := 100

/-- `update_current_bucket_no`: the number of the first bucket from here on with an entry. -/
def updateCurrentBucketNo (queue : BucketQueue Value) : ℕ :=
  queue.currentBucketNo +
    ((queue.buckets.drop queue.currentBucketNo).takeWhile List.isEmpty).length

/-- The loop of `extract_sorted_entries` over the buckets from number `key` on. -/
def extractFrom : ℕ → ℕ → List (List Value) → List (Entry Value)
  | _, _, [] => []
  | key, numEntries, bucket :: rest =>
    if numEntries = 0 then []
    else bucket.map (fun value => ((key : ℚ≥0), value)) ++
      extractFrom (key + 1) (numEntries - bucket.length) rest

def extractSortedEntries (queue : BucketQueue Value) : List (Entry Value) :=
  extractFrom queue.currentBucketNo queue.numEntries (queue.buckets.drop queue.currentBucketNo)

/-- `buckets.resize(size)` for a size that is not smaller. -/
def resize (size : ℕ) (buckets : List (List Value)) : List (List Value) :=
  buckets ++ List.replicate (size - buckets.length) []

/-- A key becomes an index by losing its fractional part. -/
def push (key : ℚ≥0) (value : Value) (queue : BucketQueue Value) : BucketQueue Value where
  buckets :=
    (if (queue.buckets.length : ℚ≥0) ≤ key then resize ⌊key + 1⌋₊ queue.buckets
      else queue.buckets).modify ⌊key⌋₊ fun bucket => bucket ++ [value]
  currentBucketNo :=
    if (queue.buckets.length : ℚ≥0) ≤ key then queue.currentBucketNo
    else if key < queue.currentBucketNo then ⌊key⌋₊ else queue.currentBucketNo
  numEntries := queue.numEntries + 1
  numPushes := queue.numPushes + 1

def pop (queue : BucketQueue Value) : Option (Entry Value × BucketQueue Value) :=
  let current := queue.updateCurrentBucketNo
  match queue.buckets[current]?.bind List.getLast? with
  | none => none
  | some topElement =>
    some ((current, topElement),
      { queue with
        buckets := queue.buckets.modify current List.dropLast
        currentBucketNo := current
        numEntries := queue.numEntries - 1 })

def addVirtualPushes (numExtraPushes : ℕ) (queue : BucketQueue Value) : BucketQueue Value :=
  { queue with numPushes := queue.numPushes + numExtraPushes }

/-- The test of `convert_if_necessary`. -/
def needsHeap (key : ℚ≥0) (queue : BucketQueue Value) : Prop :=
  (minBucketsBeforeSwitch : ℚ≥0) ≤ key ∧ (queue.numPushes : ℚ≥0) < key

instance (key : ℚ≥0) (queue : BucketQueue Value) : Decidable (queue.needsHeap key) :=
  inferInstanceAs (Decidable (_ ∧ _))

/-! ## Entries by bucket number -/

/-- The entries of the buckets from number `key` on. -/
def keyedFrom : ℕ → List (List Value) → List (Entry Value)
  | _, [] => []
  | key, bucket :: rest =>
    bucket.map (fun value => ((key : ℚ≥0), value)) ++ keyedFrom (key + 1) rest

theorem extractFrom_eq (key : ℕ) (buckets : List (List Value)) :
    extractFrom key (keyedFrom key buckets).length buckets = keyedFrom key buckets := by
  induction buckets generalizing key with
  | nil => rfl
  | cons bucket rest inductionHypothesis =>
    unfold extractFrom
    split
    · rename_i counted
      exact (List.length_eq_zero_iff.mp counted).symm
    · simp [keyedFrom, inductionHypothesis]

theorem le_of_mem_keyedFrom {key : ℕ} {buckets : List (List Value)} {entry : Entry Value}
    (member : entry ∈ keyedFrom key buckets) : (key : ℚ≥0) ≤ entry.1 := by
  induction buckets generalizing key with
  | nil => simp [keyedFrom] at member
  | cons bucket rest inductionHypothesis =>
    rcases List.mem_append.mp member with here | later
    · obtain ⟨value, inBucket, rfl⟩ := List.mem_map.mp here
      exact le_refl _
    · have above := inductionHypothesis later
      push_cast at above
      exact le_trans (by simp) above

theorem keyedFrom_ascending (key : ℕ) (buckets : List (List Value)) :
    Ascending (keyedFrom key buckets) := by
  induction buckets generalizing key with
  | nil => exact .nil
  | cons bucket rest inductionHypothesis =>
    apply List.pairwise_append.mpr
    refine ⟨?_, inductionHypothesis (key + 1), ?_⟩
    · exact List.pairwise_map.mpr (List.pairwise_of_forall fun _ _ => le_refl _)
    · intro entry inBucket later inRest
      obtain ⟨value, member, rfl⟩ := List.mem_map.mp inBucket
      have above := le_of_mem_keyedFrom inRest
      push_cast at above
      exact le_trans (by simp) above

theorem extractFrom_isPrefix (key numEntries : ℕ) (buckets : List (List Value)) :
    extractFrom key numEntries buckets <+: keyedFrom key buckets := by
  induction buckets generalizing key numEntries with
  | nil => exact List.prefix_refl _
  | cons bucket rest inductionHypothesis =>
    unfold extractFrom
    split
    · exact List.nil_prefix
    · exact List.prefix_append_right_inj _ |>.mpr (inductionHypothesis _ _)

theorem extractSortedEntries_ascending (queue : BucketQueue Value) :
    Ascending queue.extractSortedEntries :=
  (keyedFrom_ascending _ _).sublist (extractFrom_isPrefix _ _ _).sublist

theorem keyedFrom_append (key : ℕ) (left right : List (List Value)) :
    keyedFrom key (left ++ right) = keyedFrom key left ++ keyedFrom (key + left.length) right := by
  induction left generalizing key with
  | nil => simp [keyedFrom]
  | cons bucket rest inductionHypothesis =>
    simp [keyedFrom, inductionHypothesis, Nat.add_comm, Nat.add_left_comm]

theorem keyedFrom_eq_nil {key : ℕ} {buckets : List (List Value)}
    (empty : ∀ bucket ∈ buckets, bucket = []) : keyedFrom key buckets = [] := by
  induction buckets generalizing key with
  | nil => rfl
  | cons bucket rest inductionHypothesis =>
    obtain ⟨headEmpty, restEmpty⟩ := List.forall_mem_cons.mp empty
    simp [keyedFrom, headEmpty, inductionHypothesis restEmpty]

theorem keyedFrom_modify_push (key number : ℕ) (value : Value) {buckets : List (List Value)}
    (bound : number < buckets.length) :
    (keyedFrom key (buckets.modify number fun bucket => bucket ++ [value])).Perm
      (((key + number : ℕ), value) :: keyedFrom key buckets) := by
  induction buckets generalizing key number with
  | nil => simp at bound
  | cons bucket rest inductionHypothesis =>
    cases number with
    | zero =>
      simp only [List.modify_zero_cons, keyedFrom, List.map_append, List.map_cons, List.map_nil,
        List.append_assoc, List.singleton_append, Nat.add_zero]
      exact List.perm_middle
    | succ number =>
      have step := inductionHypothesis (key + 1) number (by simpa using bound)
      simp only [List.modify_succ_cons, keyedFrom]
      have numbered : key + 1 + number = key + (number + 1) := by omega
      rw [numbered] at step
      exact (step.append_left _).trans List.perm_middle

theorem keyedFrom_modify_pop (key number : ℕ) {value : Value} {buckets : List (List Value)}
    (last : buckets[number]?.bind List.getLast? = some value) :
    (keyedFrom key buckets).Perm
      (((key + number : ℕ), value) :: keyedFrom key (buckets.modify number List.dropLast)) := by
  induction buckets generalizing key number with
  | nil => simp at last
  | cons bucket rest inductionHypothesis =>
    cases number with
    | zero =>
      simp only [List.getElem?_cons_zero, Option.bind_some] at last
      have split := List.dropLast_append_getLast? value last
      simp only [List.modify_zero_cons, keyedFrom, Nat.add_zero]
      nth_rewrite 1 [← split]
      simp only [List.map_append, List.map_cons, List.map_nil, List.append_assoc,
        List.singleton_append]
      exact List.perm_middle
    | succ number =>
      have step := inductionHypothesis (key + 1) number (by simpa using last)
      have numbered : key + 1 + number = key + (number + 1) := by omega
      rw [numbered] at step
      simp only [List.modify_succ_cons, keyedFrom]
      exact (step.append_left _).trans List.perm_middle

/-! ## What a bucket queue holds -/

structure Represents (queue : BucketQueue Value) (present : Multiset (Entry Value)) : Prop where
  contents : (keyedFrom 0 queue.buckets : Multiset (Entry Value)) = present
  counted : queue.numEntries = present.card
  below : ∀ bucket ∈ queue.buckets.take queue.currentBucketNo, bucket = []
  bound : queue.currentBucketNo ≤ queue.buckets.length

theorem Represents.initial : Represents ({} : BucketQueue Value) 0 where
  contents := rfl
  counted := rfl
  below := by simp
  bound := le_refl _

/-- Buckets before a number do not change when the bucket of that number does. -/
theorem take_modify {buckets : List (List Value)} {count number : ℕ} (before : count ≤ number)
    (change : List Value → List Value) :
    (buckets.modify number change).take count = buckets.take count := by
  rw [List.take_modify]
  apply List.modify_eq_self
  simp only [List.length_take]
  omega

theorem keyedFrom_resize (size : ℕ) (buckets : List (List Value)) :
    keyedFrom 0 (resize size buckets) = keyedFrom 0 buckets := by
  have added : ∀ bucket ∈ List.replicate (size - buckets.length) ([] : List Value), bucket = [] :=
    fun bucket member => List.eq_of_mem_replicate member
  rw [resize, keyedFrom_append, keyedFrom_eq_nil added, List.append_nil]

theorem Represents.push {queue : BucketQueue Value} {present : Multiset (Entry Value)}
    (represents : Represents queue present) (number : ℕ) (value : Value) :
    Represents (queue.push number value) (((number : ℚ≥0), value) ::ₘ present) := by
  have whole : ⌊(number : ℚ≥0) + 1⌋₊ = number + 1 := by
    rw [← Nat.cast_succ, Nat.floor_natCast]
  have counted : queue.numEntries + 1 = (((number : ℚ≥0), value) ::ₘ present).card := by
    rw [Multiset.card_cons, represents.counted]
  -- with the bucket there, one entry more is in it
  have pushed : ∀ {buckets : List (List Value)}, number < buckets.length →
      keyedFrom 0 buckets = keyedFrom 0 queue.buckets →
      ((keyedFrom 0 (buckets.modify number fun bucket => bucket ++ [value]) :
        List (Entry Value)) : Multiset (Entry Value)) = ((number : ℚ≥0), value) ::ₘ present := by
    intro buckets inBounds same
    rw [← represents.contents, Multiset.cons_coe, Multiset.coe_eq_coe, ← same]
    simpa using keyedFrom_modify_push 0 number value inBounds
  by_cases grows : queue.buckets.length ≤ number
  · have below := represents.bound
    constructor
    · simp only [BucketQueue.push, Nat.cast_le, grows, if_true, whole, Nat.floor_natCast]
      apply pushed
      · simp only [resize, List.length_append, List.length_replicate]
        omega
      · exact keyedFrom_resize _ _
    · exact counted
    · simp only [BucketQueue.push, Nat.cast_le, grows, if_true, whole, Nat.floor_natCast]
      rw [take_modify (by omega), resize, List.take_append_of_le_length below]
      exact represents.below
    · simp only [BucketQueue.push, Nat.cast_le, grows, if_true, whole, List.length_modify, resize,
        List.length_append]
      omega
  · have inBounds : number < queue.buckets.length := by omega
    constructor
    · simp only [BucketQueue.push, Nat.cast_le, grows, if_false, Nat.floor_natCast]
      exact pushed inBounds rfl
    · exact counted
    · simp only [BucketQueue.push, Nat.cast_le, grows, if_false, Nat.floor_natCast, Nat.cast_lt]
      split
      · rename_i earlier
        rw [take_modify (le_refl _)]
        intro bucket member
        exact represents.below bucket (List.take_subset_take_left _ earlier.le member)
      · rw [take_modify (by omega)]
        exact represents.below
    · simp only [BucketQueue.push, Nat.cast_le, grows, if_false, Nat.floor_natCast, Nat.cast_lt,
        List.length_modify]
      have below := represents.bound
      split <;> omega

/-- The buckets that are skipped are empty as well. -/
theorem Represents.below_updated {queue : BucketQueue Value} {present : Multiset (Entry Value)}
    (represents : Represents queue present) :
    ∀ bucket ∈ queue.buckets.take queue.updateCurrentBucketNo, bucket = [] := by
  intro bucket member
  rw [updateCurrentBucketNo, List.take_add, List.mem_append] at member
  cases member with
  | inl before => exact represents.below bucket before
  | inr skipped =>
    have prefixed := List.takeWhile_prefix (l := queue.buckets.drop queue.currentBucketNo)
      List.isEmpty
    rw [← List.prefix_iff_eq_take.mp prefixed] at skipped
    simpa using List.mem_takeWhile_imp (p := List.isEmpty) skipped

theorem drop_updated (queue : BucketQueue Value) :
    queue.buckets.drop queue.updateCurrentBucketNo =
      (queue.buckets.drop queue.currentBucketNo).dropWhile List.isEmpty := by
  rw [updateCurrentBucketNo, ← List.drop_drop]
  nth_rewrite 2 [← List.takeWhile_append_dropWhile (p := List.isEmpty)
    (l := queue.buckets.drop queue.currentBucketNo)]
  exact List.drop_left

theorem Represents.contents_updated {queue : BucketQueue Value}
    {present : Multiset (Entry Value)} (represents : Represents queue present) :
    present = (keyedFrom queue.updateCurrentBucketNo
      (queue.buckets.drop queue.updateCurrentBucketNo) : Multiset (Entry Value)) := by
  have inBounds : queue.updateCurrentBucketNo ≤ queue.buckets.length := by
    have shorter := (List.takeWhile_prefix (l := queue.buckets.drop queue.currentBucketNo)
      List.isEmpty).length_le
    have bound := represents.bound
    rw [List.length_drop] at shorter
    unfold updateCurrentBucketNo
    omega
  rw [← represents.contents]
  nth_rewrite 1 [← List.take_append_drop queue.updateCurrentBucketNo queue.buckets]
  rw [keyedFrom_append, keyedFrom_eq_nil represents.below_updated, List.nil_append, Nat.zero_add,
    List.length_take, Nat.min_eq_left inBounds]

end BucketQueue

/-! ## What popping answers -/

/-- A pop finds nothing when nothing is present; otherwise it takes a least entry away. -/
inductive Popped {Queue Value : Type} (represents : Queue → Multiset (Entry Value) → Prop)
    (present : Multiset (Entry Value)) : Option (Entry Value × Queue) → Prop
  | none (absent : present = 0) : Popped represents present .none
  | some (entry : Entry Value) (rest : Queue) (left : Multiset (Entry Value))
      (taken : present = entry ::ₘ left) (least : ∀ other ∈ left, entry.1 ≤ other.1)
      (restRepresents : represents rest left) : Popped represents present (.some (entry, rest))

theorem Popped.map {Queue Queue' Value : Type}
    {represents : Queue → Multiset (Entry Value) → Prop}
    {represents' : Queue' → Multiset (Entry Value) → Prop} {present : Multiset (Entry Value)}
    {result : Option (Entry Value × Queue)} (popped : Popped represents present result)
    (wrap : Queue → Queue') (keeps : ∀ rest left, represents rest left → represents' (wrap rest) left) :
    Popped represents' present (result.map fun popped => (popped.1, wrap popped.2)) := by
  cases popped with
  | none absent => exact .none absent
  | some entry rest left taken least restRepresents =>
    exact .some entry (wrap rest) left taken least (keeps rest left restRepresents)

namespace BucketQueue

variable {Value : Type}

theorem Represents.pop {queue : BucketQueue Value} {present : Multiset (Entry Value)}
    (represents : Represents queue present) : Popped Represents present queue.pop := by
  have contents := represents.contents_updated
  have first : queue.buckets[queue.updateCurrentBucketNo]? =
      (queue.buckets.drop queue.updateCurrentBucketNo).head? := by simp
  have opened := drop_updated queue
  cases buckets : queue.buckets.drop queue.updateCurrentBucketNo with
  | nil =>
    rw [buckets] at contents first
    have found : queue.pop = none := by simp [BucketQueue.pop, first]
    rw [found]
    exact .none contents
  | cons bucket rest =>
    rw [buckets] at contents first opened
    -- skipping stopped at this bucket, so it has an entry
    have occupied : bucket ≠ [] := by
      have stopped := List.head?_dropWhile_not (@List.isEmpty Value)
        (queue.buckets.drop queue.currentBucketNo)
      simpa [← opened] using stopped
    obtain ⟨top, last⟩ := List.getLast?_isSome.mpr occupied |> Option.isSome_iff_exists.mp
    have found : queue.buckets[queue.updateCurrentBucketNo]?.bind List.getLast? = some top := by
      simp [first, last]
    have moved := keyedFrom_modify_pop 0 queue.updateCurrentBucketNo found
    rw [Nat.zero_add] at moved
    have taken : present = ((queue.updateCurrentBucketNo : ℚ≥0), top) ::ₘ
        (keyedFrom 0 (queue.buckets.modify queue.updateCurrentBucketNo List.dropLast) :
          Multiset (Entry Value)) := by
      rw [← represents.contents, Multiset.cons_coe, Multiset.coe_eq_coe]
      exact moved
    have popped : queue.pop = some (((queue.updateCurrentBucketNo : ℚ≥0), top),
        { queue with
          buckets := queue.buckets.modify queue.updateCurrentBucketNo List.dropLast
          currentBucketNo := queue.updateCurrentBucketNo
          numEntries := queue.numEntries - 1 }) := by
      simp only [BucketQueue.pop, found]
    rw [popped]
    apply Popped.some _ _ _ taken
    · intro other member
      have inPresent : other ∈ present := taken ▸ Multiset.mem_cons_of_mem member
      rw [contents] at inPresent
      exact le_of_mem_keyedFrom inPresent
    · constructor
      · rfl
      · rw [represents.counted, taken, Multiset.card_cons, Nat.add_sub_cancel]
      · intro bucket member
        rw [take_modify (le_refl _)] at member
        exact represents.below_updated bucket member
      · rw [List.length_modify]
        have inBounds : queue.updateCurrentBucketNo < queue.buckets.length := by
          by_contra outside
          rw [List.drop_eq_nil_of_le (not_lt.mp outside)] at buckets
          cases buckets
        exact inBounds.le

theorem Represents.extractSortedEntries {queue : BucketQueue Value}
    {present : Multiset (Entry Value)} (represents : Represents queue present) :
    (queue.extractSortedEntries : Multiset (Entry Value)) = present := by
  have split : keyedFrom 0 queue.buckets =
      keyedFrom queue.currentBucketNo (queue.buckets.drop queue.currentBucketNo) := by
    nth_rewrite 1 [← List.take_append_drop queue.currentBucketNo queue.buckets]
    rw [keyedFrom_append, keyedFrom_eq_nil represents.below, List.nil_append, Nat.zero_add,
      List.length_take, Nat.min_eq_left represents.bound]
  have counted : queue.numEntries =
      (keyedFrom queue.currentBucketNo (queue.buckets.drop queue.currentBucketNo)).length := by
    rw [represents.counted, ← represents.contents, Multiset.coe_card, split]
  rw [BucketQueue.extractSortedEntries, counted, extractFrom_eq, ← represents.contents, split]

end BucketQueue

/-! ## Two queues behind one interface -/

inductive AdaptiveQueue (Value : Type) where
  | bucketBased (queue : BucketQueue Value)
  | heapBased (heap : HeapAlgorithms.Heap ℚ≥0 Value)

namespace AdaptiveQueue

variable {Value : Type}

def initial : AdaptiveQueue Value := .bucketBased {}

/-- `create_from_sorted_entries_destructively`: a sorted vector is a heap already. -/
def createFromSortedEntries (entries : List (Entry Value)) (ascending : Ascending entries) :
    HeapAlgorithms.Heap ℚ≥0 Value :=
  ⟨entries, .of_ascending ascending⟩

def convertIfNecessary (key : ℚ≥0) : AdaptiveQueue Value → AdaptiveQueue Value
  | .bucketBased queue =>
    if queue.needsHeap key then
      .heapBased (createFromSortedEntries queue.extractSortedEntries
        queue.extractSortedEntries_ascending)
    else .bucketBased queue
  | .heapBased heap => .heapBased heap

variable (algorithms : HeapAlgorithms ℚ≥0 Value)

def push (key : ℚ≥0) (value : Value) (queue : AdaptiveQueue Value) : AdaptiveQueue Value :=
  match queue.convertIfNecessary key with
  | .bucketBased queue => .bucketBased (queue.push key value)
  | .heapBased heap => .heapBased (algorithms.push key value heap)

def pop : AdaptiveQueue Value → Option (Entry Value × AdaptiveQueue Value)
  | .bucketBased queue => queue.pop.map fun popped => (popped.1, .bucketBased popped.2)
  | .heapBased heap => (algorithms.pop heap).map fun popped => (popped.1, .heapBased popped.2)

def addVirtualPushes (numExtraPushes : ℕ) : AdaptiveQueue Value → AdaptiveQueue Value
  | .bucketBased queue => .bucketBased (queue.addVirtualPushes numExtraPushes)
  | .heapBased heap => .heapBased heap

inductive Represents : AdaptiveQueue Value → Multiset (Entry Value) → Prop
  | bucketBased {queue : BucketQueue Value} {present : Multiset (Entry Value)} :
      queue.Represents present → Represents (.bucketBased queue) present
  | heapBased (heap : HeapAlgorithms.Heap ℚ≥0 Value) : Represents (.heapBased heap) (heap.1 : Multiset _)

/-- A key that goes to the buckets is a whole number. -/
def WholeKey (key : ℚ≥0) (queue : AdaptiveQueue Value) : Prop :=
  ∀ buckets, queue.convertIfNecessary key = .bucketBased buckets → ∃ number : ℕ, key = number

def isHeapBased : AdaptiveQueue Value → Bool
  | .bucketBased _ => false
  | .heapBased _ => true

theorem wholeKey_natCast (number : ℕ) (queue : AdaptiveQueue Value) : queue.WholeKey number :=
  fun _ _ => ⟨number, rfl⟩

theorem wholeKey_of_isHeapBased {key : ℚ≥0} {queue : AdaptiveQueue Value}
    (heapBased : (queue.convertIfNecessary key).isHeapBased = true) : queue.WholeKey key := by
  intro buckets converted
  simp [converted, isHeapBased] at heapBased

variable {algorithms}

theorem Represents.convertIfNecessary {queue : AdaptiveQueue Value}
    {present : Multiset (Entry Value)} (represents : Represents queue present) (key : ℚ≥0) :
    Represents (queue.convertIfNecessary key) present := by
  cases represents with
  | heapBased heap => exact .heapBased heap
  | @bucketBased queue _ represents =>
    by_cases switch : queue.needsHeap key
    · have converted := Represents.heapBased (createFromSortedEntries queue.extractSortedEntries
        queue.extractSortedEntries_ascending)
      have kept : ((createFromSortedEntries queue.extractSortedEntries
          queue.extractSortedEntries_ascending).1 : Multiset (Entry Value)) = present :=
        represents.extractSortedEntries
      rw [kept] at converted
      simpa only [AdaptiveQueue.convertIfNecessary, switch, if_true] using converted
    · simpa only [AdaptiveQueue.convertIfNecessary, switch, if_false] using .bucketBased represents

theorem Represents.push {queue : AdaptiveQueue Value} {present : Multiset (Entry Value)}
    (represents : Represents queue present) {key : ℚ≥0} (whole : queue.WholeKey key)
    (value : Value) : Represents (queue.push algorithms key value) ((key, value) ::ₘ present) := by
  have converted := represents.convertIfNecessary key
  unfold AdaptiveQueue.push
  cases kind : queue.convertIfNecessary key with
  | bucketBased buckets =>
    obtain ⟨number, rfl⟩ := whole buckets kind
    rw [kind] at converted
    cases converted with
    | bucketBased represents => exact .bucketBased (represents.push number value)
  | heapBased heap =>
    rw [kind] at converted
    cases converted
    have pushed : ((algorithms.push key value heap).1 : Multiset (Entry Value)) =
        (key, value) ::ₘ heap.1 := algorithms.heapQueue.entries_push key value heap
    exact pushed ▸ Represents.heapBased (algorithms.push key value heap)

theorem popped_heap (heap : HeapAlgorithms.Heap ℚ≥0 Value) :
    Popped (fun rest left => (rest.1 : Multiset (Entry Value)) = left) heap.1
      (algorithms.pop heap) := by
  cases popped : algorithms.pop heap with
  | none => exact .none (algorithms.heapQueue.entries_of_pop_none heap popped)
  | some result =>
    obtain ⟨entry, rest⟩ := result
    exact .some entry rest rest.1
      (algorithms.heapQueue.entries_of_pop_some heap entry rest popped)
      (algorithms.heapQueue.le_of_pop_some heap entry rest popped) rfl

theorem Represents.pop {queue : AdaptiveQueue Value} {present : Multiset (Entry Value)}
    (represents : Represents queue present) : Popped Represents present (queue.pop algorithms) := by
  cases represents with
  | bucketBased represents =>
    exact represents.pop.map AdaptiveQueue.bucketBased
      fun rest left restRepresents => Represents.bucketBased restRepresents
  | heapBased heap =>
    exact (popped_heap heap).map AdaptiveQueue.heapBased
      fun rest left same => same ▸ Represents.heapBased rest

theorem Represents.addVirtualPushes {queue : AdaptiveQueue Value}
    {present : Multiset (Entry Value)} (represents : Represents queue present)
    (numExtraPushes : ℕ) : Represents (queue.addVirtualPushes numExtraPushes) present := by
  cases represents with
  | bucketBased represents =>
    -- only the number of pushes changes
    exact .bucketBased
      ⟨represents.contents, represents.counted, represents.below, represents.bound⟩
  | heapBased heap => exact .heapBased heap

/-! ## Runs -/

inductive Operation (Value : Type) where
  | push (key : ℚ≥0) (value : Value)
  | pop
  | addVirtualPushes (numExtraPushes : ℕ)

/-- The queue beside the entries that were pushed and have not been popped. -/
structure Observed (Value : Type) where
  queue : AdaptiveQueue Value := .initial
  present : Multiset (Entry Value) := 0

namespace Observed

variable [DecidableEq Value] (algorithms)

def step (observed : Observed Value) : Operation Value → Observed Value
  | .push key value =>
    { queue := observed.queue.push algorithms key value
      present := (key, value) ::ₘ observed.present }
  | .pop =>
    match observed.queue.pop algorithms with
    | none => observed
    | some (entry, rest) => { queue := rest, present := observed.present.erase entry }
  | .addVirtualPushes numExtraPushes =>
    { observed with queue := observed.queue.addVirtualPushes numExtraPushes }

def run (operations : List (Operation Value)) : Observed Value :=
  operations.foldl (step algorithms) {}

/-- Popping now answers a pair that is present, with its key, and no key present is smaller. -/
def PopsLeast (observed : Observed Value) : Prop :=
  match observed.queue.pop algorithms with
  | none => observed.present = 0
  | some (entry, _) => entry ∈ observed.present ∧ ∀ other ∈ observed.present, entry.1 ≤ other.1

/-- Each push of the run whose key goes to the buckets has a whole number for a key. -/
def WholeKeys (operations : List (Operation Value)) : Prop :=
  ∀ before key value after, operations = before ++ .push key value :: after →
    (run algorithms before).queue.WholeKey key

variable {algorithms}

theorem run_append (operations : List (Operation Value)) (operation : Operation Value) :
    run algorithms (operations ++ [operation]) = (run algorithms operations).step algorithms operation := by
  simp [run]

theorem WholeKeys.nil : WholeKeys algorithms ([] : List (Operation Value)) := by
  intro before key value after split
  simp at split

theorem WholeKeys.push {operations : List (Operation Value)} (whole : WholeKeys algorithms operations)
    {key : ℚ≥0} (last : (run algorithms operations).queue.WholeKey key) (value : Value) :
    WholeKeys algorithms (operations ++ [.push key value]) := by
  intro before key' value' after split
  cases after using List.reverseRecOn with
  | nil =>
    obtain ⟨rfl, same⟩ := List.append_inj' split rfl
    cases same
    exact last
  | append_singleton after operation =>
    rw [← List.cons_append, ← List.append_assoc] at split
    exact whole before key' value' after (List.append_inj' split rfl).1

theorem step_represents {observed : Observed Value}
    (represents : Represents observed.queue observed.present) {operation : Operation Value}
    (whole : ∀ key value, operation = .push key value → observed.queue.WholeKey key) :
    Represents (observed.step algorithms operation).queue
      (observed.step algorithms operation).present := by
  cases operation with
  | push key value => exact represents.push (whole key value rfl) value
  | pop =>
    have popped : Popped Represents observed.present (observed.queue.pop algorithms) := represents.pop
    unfold step
    cases answer : observed.queue.pop algorithms with
    | none => exact represents
    | some result =>
      rw [answer] at popped
      cases popped with
      | some entry rest left taken least restRepresents => simpa [taken] using restRepresents
  | addVirtualPushes numExtraPushes =>
    exact represents.addVirtualPushes numExtraPushes

theorem run_represents {operations : List (Operation Value)}
    (whole : WholeKeys algorithms operations) :
    Represents (run algorithms operations).queue (run algorithms operations).present := by
  induction operations using List.reverseRecOn with
  | nil => exact .bucketBased .initial
  | append_singleton operations operation inductionHypothesis =>
    have before : WholeKeys algorithms operations := by
      intro earlier key value after split
      exact whole earlier key value (after ++ [operation]) (by simp [split])
    rw [run_append]
    apply step_represents (inductionHypothesis before)
    intro key value pushed
    exact whole operations key value [] (by rw [pushed])

/-- In a run whose keys are whole numbers while the buckets are in use, every pop takes a least
pair. -/
theorem popsLeast_of_wholeKeys {operations : List (Operation Value)}
    (whole : WholeKeys algorithms operations) (before after : List (Operation Value))
    (split : operations = before ++ after) : (run algorithms before).PopsLeast algorithms := by
  have wholeBefore : WholeKeys algorithms before := by
    intro earlier key value later splitBefore
    exact whole earlier key value (later ++ after) (by simp [split, splitBefore])
  have popped : Popped Represents _ ((run algorithms before).queue.pop algorithms) :=
    (run_represents wholeBefore).pop
  unfold PopsLeast
  cases answer : (run algorithms before).queue.pop algorithms with
  | none =>
    rw [answer] at popped
    cases popped with
    | none absent => exact absent
  | some result =>
    rw [answer] at popped
    cases popped with
    | some entry rest left taken least restRepresents =>
      simp only [taken, Multiset.mem_cons, true_or, forall_eq_or_imp, le_refl, true_and]
      exact least

/-- The second key makes the queue a heap, so the third may have a fractional part. -/
theorem popsLeast_of_wholeKeys_switch :
    (run (.sorting ℚ≥0 ℕ) [.push 3 0, .push (201 / 2) 1, .push (1 / 2) 2]).PopsLeast
      (.sorting ℚ≥0 ℕ) := by
  refine popsLeast_of_wholeKeys ?_ [.push 3 0, .push (201 / 2) 1, .push (1 / 2) 2] [] rfl
  have first : WholeKeys (.sorting ℚ≥0 ℕ) [.push 3 0] :=
    WholeKeys.push .nil (wholeKey_natCast 3 _) 0
  have second : WholeKeys (.sorting ℚ≥0 ℕ) [.push 3 0, .push (201 / 2) 1] :=
    first.push (wholeKey_of_isHeapBased (by decide +kernel)) 1
  exact second.push (wholeKey_of_isHeapBased (by decide +kernel)) 2

/-- The key `11/10` is pushed before `19/10`; both are in bucket `1`, whose last entry is popped. -/
theorem fractional_keys_lost :
    ¬ (run (.sorting ℚ≥0 ℕ) [.push (11 / 10) 0, .push (19 / 10) 1]).PopsLeast
      (.sorting ℚ≥0 ℕ) := by
  intro least
  have popped : ((run (.sorting ℚ≥0 ℕ) [.push (11 / 10) 0, .push (19 / 10) 1]).queue.pop
      (.sorting ℚ≥0 ℕ)).map Prod.fst = some (1, 1) := by decide +kernel
  obtain ⟨⟨entry, rest⟩, found, sameEntry⟩ := Option.map_eq_some_iff.mp popped
  have pair : entry = (1, 1) := sameEntry
  unfold PopsLeast at least
  rw [found, pair] at least
  have absent : ((1, 1) : Entry ℕ) ∉ (run (.sorting ℚ≥0 ℕ)
      [.push (11 / 10) 0, .push (19 / 10) 1]).present := by decide +kernel
  exact absent least.1

end Observed

end AdaptiveQueue

end CutPlan.Search
