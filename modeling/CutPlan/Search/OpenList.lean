import CutPlan.Search.Evaluation
import Mathlib.Data.Multiset.AddSub
import Mathlib.Tactic

/-! # Open lists

`OpenList` is the interface of the state open lists.  The representation stays abstract; what the
search relies on is the multiset of entries, which the laws of the structure describe.  The tie
breaking list, with its buckets ordered by evaluator values, is an instance.
-/

namespace CutPlan.Search

/-- Evaluator values in the order of the evaluators. -/
abbrev Key := List (WithTop ℚ)

/-- An open list with contents `Q` whose evaluators read a heuristic memory `M`.  An alternation list
keeps an entry in several sublists, so an insertion may add more than one copy. -/
structure OpenList (S M Q : Type) where
  onlyPreferred : Bool
  initial : Q
  isEmpty : Q → Bool
  isDeadEnd : M → S → Bool
  doInsertion : M → EvaluationContext S → Q → Q
  removeMin : Q → Option (S × Key × Q)
  boostPreferred : Q → Q
  entries : Q → Multiset S
  entries_initial : entries initial = 0
  isEmpty_iff : ∀ queue, isEmpty queue = true ↔ entries queue = 0
  removeMin_isSome : ∀ queue, isEmpty queue = false → (removeMin queue).isSome = true
  removeMin_entries : ∀ {queue state key rest},
    removeMin queue = some (state, key, rest) → entries queue = state ::ₘ entries rest
  le_doInsertion : ∀ memory context queue,
    entries queue ≤ entries (doInsertion memory context queue)
  mem_doInsertion : ∀ memory context queue, isDeadEnd memory context.state = false →
    context.state ∈ entries (doInsertion memory context queue)
  of_mem_doInsertion : ∀ {memory context queue state},
    state ∈ entries (doInsertion memory context queue) → state ∈ entries queue ∨ state = context.state
  boostPreferred_entries : ∀ queue, entries (boostPreferred queue) = entries queue

namespace OpenList

variable {S M Q : Type} (openList : OpenList S M Q)

def insert (memory : M) (context : EvaluationContext S) (queue : Q) : Q :=
  if openList.onlyPreferred && !context.isPreferred then queue
  else if openList.isDeadEnd memory context.state then queue
  else openList.doInsertion memory context queue

variable {openList} {memory : M} {context : EvaluationContext S} {queue : Q} {state : S}

theorem mem_insert_of_mem (present : state ∈ openList.entries queue) :
    state ∈ openList.entries (openList.insert memory context queue) := by
  unfold insert
  split
  · exact present
  · split
    · exact present
    · exact Multiset.mem_of_le (openList.le_doInsertion memory context queue) present

theorem of_mem_insert (present : state ∈ openList.entries (openList.insert memory context queue)) :
    state ∈ openList.entries queue ∨ state = context.state := by
  unfold insert at present
  split at present
  · exact .inl present
  · split at present
    · exact .inl present
    · exact openList.of_mem_doInsertion present

theorem mem_insert_self (unrestricted : openList.onlyPreferred = false)
    (alive : openList.isDeadEnd memory context.state = false) :
    context.state ∈ openList.entries (openList.insert memory context queue) := by
  simp only [insert, unrestricted, alive, Bool.false_and, Bool.false_eq_true, if_false]
  exact openList.mem_doInsertion memory context queue alive

end OpenList

/-! ## The tie-breaking list -/

structure TieBreakingOptions (S M : Type) where
  prefOnly : Bool
  firstEvaluator : ScalarEvaluator S M
  otherEvaluators : List (ScalarEvaluator S M)
  unsafePruning : Bool

/-- The map from keys to buckets in key order; a bucket that runs empty is erased. -/
structure TieBreakingBuckets (S : Type) where
  buckets : List (Key × List S)
  nonempty : ∀ bucket ∈ buckets, bucket.2 ≠ []

namespace TieBreakingBuckets

variable {S : Type}

def pushBack (key : Key) (entry : S) : List (Key × List S) → List (Key × List S)
  | [] => [(key, [entry])]
  | (first, bucket) :: rest =>
    if first = key then (first, bucket ++ [entry]) :: rest
    else if key < first then (key, [entry]) :: (first, bucket) :: rest
    else (first, bucket) :: pushBack key entry rest

theorem pushBack_nonempty (key : Key) (entry : S) (buckets : List (Key × List S))
    (nonempty : ∀ bucket ∈ buckets, bucket.2 ≠ []) :
    ∀ bucket ∈ pushBack key entry buckets, bucket.2 ≠ [] := by
  induction buckets with
  | nil => simp [pushBack]
  | cons head rest inductionHypothesis =>
    obtain ⟨first, bucket⟩ := head
    simp only [List.forall_mem_cons] at nonempty
    obtain ⟨headNonempty, restNonempty⟩ := nonempty
    unfold pushBack
    split
    · exact List.forall_mem_cons.mpr ⟨by simp, restNonempty⟩
    · split
      · exact List.forall_mem_cons.mpr
          ⟨by simp, List.forall_mem_cons.mpr ⟨headNonempty, restNonempty⟩⟩
      · exact List.forall_mem_cons.mpr ⟨headNonempty, inductionHypothesis restNonempty⟩

def push (key : Key) (entry : S) (queue : TieBreakingBuckets S) : TieBreakingBuckets S where
  buckets := pushBack key entry queue.buckets
  nonempty := pushBack_nonempty key entry queue.buckets queue.nonempty

/-- `size`: the number of stored entries. -/
def size (queue : TieBreakingBuckets S) : ℕ :=
  (queue.buckets.map fun bucket => bucket.2.length).sum

def removeMin (queue : TieBreakingBuckets S) : Option (S × Key × TieBreakingBuckets S) :=
  match queue with
  | ⟨[], _⟩ => none
  | ⟨(_, []) :: _, _⟩ => none
  | ⟨(key, [entry]) :: rest, nonempty⟩ =>
    some (entry, key, ⟨rest, fun bucket member => nonempty bucket (by simp [member])⟩)
  | ⟨(key, entry :: next :: bucket) :: rest, nonempty⟩ =>
    some (entry, key, ⟨(key, next :: bucket) :: rest, by
      simp only [List.forall_mem_cons] at nonempty ⊢
      exact ⟨by simp, nonempty.2⟩⟩)

def entries (queue : TieBreakingBuckets S) : Multiset S :=
  (queue.buckets.flatMap Prod.snd : List S)

theorem size_eq_card (queue : TieBreakingBuckets S) : queue.size = queue.entries.card := by
  simp [size, entries, List.length_flatMap]

theorem pushBack_entries (key : Key) (entry : S) (buckets : List (Key × List S)) :
    (((pushBack key entry buckets).flatMap Prod.snd : List S) : Multiset S) =
      entry ::ₘ (buckets.flatMap Prod.snd : List S) := by
  rw [Multiset.cons_coe, Multiset.coe_eq_coe]
  induction buckets with
  | nil => simp [pushBack]
  | cons head rest inductionHypothesis =>
    obtain ⟨first, bucket⟩ := head
    unfold pushBack
    split
    · simp only [List.flatMap_cons, List.append_assoc, List.singleton_append]
      exact List.perm_middle
    · split
      · simp
      · simp only [List.flatMap_cons]
        exact (inductionHypothesis.append_left bucket).trans List.perm_middle

@[simp] theorem push_entries (key : Key) (entry : S) (queue : TieBreakingBuckets S) :
    (queue.push key entry).entries = entry ::ₘ queue.entries :=
  pushBack_entries key entry queue.buckets

theorem removeMin_entries {queue rest : TieBreakingBuckets S} {entry : S} {key : Key}
    (removed : queue.removeMin = some (entry, key, rest)) :
    queue.entries = entry ::ₘ rest.entries := by
  obtain ⟨buckets, nonempty⟩ := queue
  match buckets with
  | [] => simp [removeMin] at removed
  | (_, []) :: _ => simp [removeMin] at removed
  | (first, [only]) :: tail =>
    simp only [removeMin, Option.some.injEq, Prod.mk.injEq] at removed
    obtain ⟨rfl, rfl, rfl⟩ := removed
    simp [entries]
  | (first, head :: next :: bucket) :: tail =>
    simp only [removeMin, Option.some.injEq, Prod.mk.injEq] at removed
    obtain ⟨rfl, rfl, rfl⟩ := removed
    simp [entries]

theorem removeMin_isSome {queue : TieBreakingBuckets S} (nonempty : queue.size ≠ 0) :
    queue.removeMin.isSome = true := by
  obtain ⟨buckets, bucketsNonempty⟩ := queue
  match buckets with
  | [] => simp [size] at nonempty
  | (_, []) :: _ => simp at bucketsNonempty
  | (_, [_]) :: _ => rfl
  | (_, _ :: _ :: _) :: _ => rfl

end TieBreakingBuckets

namespace TieBreakingOptions

variable {S M : Type} (options : TieBreakingOptions S M)

def evaluators : List (ScalarEvaluator S M) := options.firstEvaluator :: options.otherEvaluators

def isReliableDeadEnd (memory : M) (state : S) : Bool :=
  options.evaluators.any fun evaluator =>
    evaluator.isInfinite memory state && evaluator.deadEndsAreReliable

def isDeadEnd (memory : M) (state : S) : Bool :=
  options.isReliableDeadEnd memory state ||
    (options.unsafePruning && options.firstEvaluator.isInfinite memory state) ||
    options.evaluators.all fun evaluator => evaluator.isInfinite memory state

def doInsertion (memory : M) (context : EvaluationContext S) (queue : TieBreakingBuckets S) :
    TieBreakingBuckets S :=
  queue.push (options.evaluators.map fun evaluator =>
    evaluator.getHeuristicValueOrInfinity memory context) context.state

def openList : OpenList S M (TieBreakingBuckets S) where
  onlyPreferred := options.prefOnly
  initial := ⟨[], by simp⟩
  isEmpty := fun queue => queue.size = 0
  isDeadEnd := options.isDeadEnd
  doInsertion := options.doInsertion
  removeMin := TieBreakingBuckets.removeMin
  boostPreferred := id
  entries := TieBreakingBuckets.entries
  entries_initial := rfl
  isEmpty_iff := fun queue => by simp [TieBreakingBuckets.size_eq_card]
  removeMin_isSome := fun queue occupied =>
    TieBreakingBuckets.removeMin_isSome (by simpa using occupied)
  removeMin_entries := TieBreakingBuckets.removeMin_entries
  le_doInsertion := fun memory context queue => by
    simpa [doInsertion] using Multiset.le_cons_self _ _
  mem_doInsertion := fun memory context queue _ => by simp [doInsertion]
  of_mem_doInsertion := fun present => by
    simpa [doInsertion, or_comm] using present
  boostPreferred_entries := fun _ => rfl

end TieBreakingOptions

end CutPlan.Search
