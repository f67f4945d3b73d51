import Mathlib.Algebra.Order.Field.Basic
import Mathlib.Tactic.Linarith
import Mathlib.Tactic.Positivity

/-! # Token buckets

A bucket is refilled at a constant rate up to its capacity, and a token is taken from it whenever it has one.  In every
window of time the tokens taken are at most the capacity and what the rate adds in that time.
-/

namespace CutPlan.Lib

structure TokenBucket (K : Type) where
  capacity : K
  refillRate : K

/-- The tokens of a bucket when it was last looked at. -/
structure TokenLevel (K : Type) where
  tokens : K
  updatedAt : K

namespace TokenBucket

variable {K : Type} [Field K] [LinearOrder K] [IsStrictOrderedRing K] (bucket : TokenBucket K)

def refill (now : K) (level : TokenLevel K) : TokenLevel K where
  tokens := min bucket.capacity (level.tokens + (now - level.updatedAt) * bucket.refillRate)
  updatedAt := now

def takeToken (level : TokenLevel K) : TokenLevel K := { level with tokens := level.tokens - 1 }

/-- How long it takes until there is a token. -/
def timeToToken (level : TokenLevel K) : K := (1 - level.tokens) / bucket.refillRate

variable {bucket} {level : TokenLevel K} {now : K} {taken : List K}

/-- From the time to the next token on there is one, unless the bucket is too small for it. -/
theorem one_le_tokens_refill (refills : 0 < bucket.refillRate) (large : 1 ≤ bucket.capacity)
    (late : level.updatedAt + bucket.timeToToken level ≤ now) : 1 ≤ (bucket.refill now level).tokens := by
  have missing : 1 - level.tokens ≤ (now - level.updatedAt) * bucket.refillRate := by
    rw [← div_le_iff₀ refills]
    rw [timeToToken] at late
    linarith
  exact le_min large (by linarith)

omit [IsStrictOrderedRing K] in
/-- A bucket of less than one token never has one. -/
theorem tokens_refill_lt_one (small : bucket.capacity < 1) (now : K) (level : TokenLevel K) :
    (bucket.refill now level).tokens < 1 :=
  (min_le_left _ _).trans_lt small

/-- How many of the times are in a window. -/
def countWithin (start stop : K) (times : List K) : ℕ := times.countP fun time => start ≤ time ∧ time ≤ stop

/-- The tokens in the bucket and those taken from it. -/
structure Accounts (bucket : TokenBucket K) (level : TokenLevel K) (taken : List K) : Prop where
  nonneg : 0 ≤ level.tokens
  atMost : level.tokens ≤ bucket.capacity
  past : ∀ time ∈ taken, time ≤ level.updatedAt
  since : ∀ start ≤ level.updatedAt,
    (countWithin start level.updatedAt taken : K) + level.tokens ≤
      bucket.capacity + (level.updatedAt - start) * bucket.refillRate
  within : ∀ start stop, start ≤ stop →
    (countWithin start stop taken : K) ≤ bucket.capacity + (stop - start) * bucket.refillRate

omit [Field K] [IsStrictOrderedRing K] in
theorem countWithin_congr {start stop stop' : K} (same : ∀ time ∈ taken, time ≤ stop ↔ time ≤ stop') :
    countWithin start stop taken = countWithin start stop' taken :=
  List.countP_congr fun time isTaken => by simp [same time isTaken]

omit [Field K] [IsStrictOrderedRing K] in
theorem countWithin_eq_zero {start stop : K} (before : ∀ time ∈ taken, time < start) :
    countWithin start stop taken = 0 :=
  List.countP_eq_zero.mpr fun time isTaken => by simp [not_le.mpr (before time isTaken)]

theorem accounts_start (nonneg : 0 ≤ bucket.capacity) (refills : 0 ≤ bucket.refillRate) (now : K) :
    bucket.Accounts ⟨bucket.capacity, now⟩ [] where
  nonneg := nonneg
  atMost := le_rfl
  past := by simp
  since start early := by
    have added := mul_nonneg (sub_nonneg.mpr early) refills
    simp only [countWithin, List.countP_nil, Nat.cast_zero, zero_add]
    linarith
  within start stop ordered := by
    have added := mul_nonneg (sub_nonneg.mpr ordered) refills
    simp only [countWithin, List.countP_nil, Nat.cast_zero]
    linarith

theorem Accounts.refill (accounts : bucket.Accounts level taken) (refills : 0 ≤ bucket.refillRate)
    (later : level.updatedAt ≤ now) : bucket.Accounts (bucket.refill now level) taken where
  nonneg := by
    have added := mul_nonneg (sub_nonneg.mpr later) refills
    exact le_min (accounts.nonneg.trans accounts.atMost) (by linarith [accounts.nonneg])
  atMost := min_le_left _ _
  past time isTaken := (accounts.past time isTaken).trans later
  since start early := by
    have sameCount : countWithin start now taken = countWithin start level.updatedAt taken :=
      countWithin_congr fun time isTaken =>
        iff_of_true ((accounts.past time isTaken).trans later) (accounts.past time isTaken)
    change (countWithin start now taken : K) + _ ≤ _ + (now - start) * _
    rw [sameCount]
    cases le_or_gt start level.updatedAt with
    | inl before =>
      have tokens := min_le_right bucket.capacity (level.tokens + (now - level.updatedAt) * bucket.refillRate)
      have sum := accounts.since start before
      change _ + min _ _ ≤ _
      linarith
    | inr after =>
      -- Nothing was taken since then, and the bucket holds its capacity at most.
      have added := mul_nonneg (sub_nonneg.mpr early) refills
      have tokens := min_le_left bucket.capacity (level.tokens + (now - level.updatedAt) * bucket.refillRate)
      rw [countWithin_eq_zero fun time isTaken => (accounts.past time isTaken).trans_lt after, Nat.cast_zero, zero_add]
      change min _ _ ≤ _
      change 0 ≤ (now - start) * _ at added
      linarith
  within := accounts.within

theorem Accounts.takeToken (accounts : bucket.Accounts level taken) (refills : 0 ≤ bucket.refillRate)
    (hasToken : 1 ≤ level.tokens) :
    bucket.Accounts (TokenBucket.takeToken level) (level.updatedAt :: taken) := by
  have countSince : ∀ start ≤ level.updatedAt, countWithin start level.updatedAt (level.updatedAt :: taken) =
      countWithin start level.updatedAt taken + 1 := by
    intro start early
    simp [countWithin, early]
  constructor
  case nonneg => exact sub_nonneg.mpr hasToken
  case atMost => exact (sub_le_self _ zero_le_one).trans accounts.atMost
  case past =>
    intro time isTaken
    cases isTaken with
    | head => exact le_rfl
    | tail _ isTaken => exact accounts.past time isTaken
  case since =>
    intro start early
    have sum := accounts.since start early
    change (countWithin start level.updatedAt _ : K) + (level.tokens - 1) ≤ _
    rw [countSince start early]
    push_cast
    change _ ≤ _ + (level.updatedAt - start) * _
    linarith
  case within =>
    intro start stop ordered
    by_cases isWithin : start ≤ level.updatedAt ∧ level.updatedAt ≤ stop
    · -- All tokens of the window have been taken by now.
      obtain ⟨early, late⟩ := isWithin
      have sum := accounts.since start early
      have sameCount : countWithin start stop (level.updatedAt :: taken) =
          countWithin start level.updatedAt (level.updatedAt :: taken) := by
        refine countWithin_congr fun time isTaken => ?_
        have past : time ≤ level.updatedAt := by
          cases isTaken with
          | head => exact le_rfl
          | tail _ isTaken => exact accounts.past time isTaken
        exact iff_of_true (past.trans late) past
      have longer := mul_le_mul_of_nonneg_right (sub_le_sub_right late start) refills
      rw [sameCount, countSince start early]
      push_cast
      linarith
    · have sameCount : countWithin start stop (level.updatedAt :: taken) = countWithin start stop taken := by
        simp [countWithin, isWithin]
      rw [sameCount]
      exact accounts.within start stop ordered

end TokenBucket

end CutPlan.Lib
