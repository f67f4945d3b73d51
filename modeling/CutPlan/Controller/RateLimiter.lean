import CutPlan.Lib.Machine
import CutPlan.Lib.TokenBucket
import Mathlib.Algebra.Order.Ring.Rat

/-! # The rate limiter

Calls wait for a lock, and the one that holds it sleeps until there is a token.  The events of a run are the calls and
the clock readings of the holders, which follow the first reading and every sleep.
-/

namespace CutPlan.Controller

open CutPlan.Lib

structure AsyncRateLimiter (K : Type) where
  maxRate : K
  timePeriod : K

/-- The calls are numbered.  The first of the waiting calls holds the lock. -/
structure LimiterState (K : Type) where
  level : TokenLevel K
  waiting : List ℕ
  wakeAt : Option K
  calls : ℕ
  returned : List ℕ
  granted : List K

inductive LimiterEvent (K : Type) where
  | acquire
  | wake (now : K)

namespace AsyncRateLimiter

variable {K : Type} [Field K] [LinearOrder K] [IsStrictOrderedRing K] (limiter : AsyncRateLimiter K)

def bucket : TokenBucket K where
  capacity := limiter.maxRate
  refillRate := limiter.maxRate / limiter.timePeriod

def waitTime (level : TokenLevel K) : K := (1 - level.tokens) * limiter.timePeriod / limiter.maxRate

def start (createdAt : K) : LimiterState K where
  level := ⟨max 0 limiter.maxRate, createdAt⟩
  waiting := []
  wakeAt := none
  calls := 0
  returned := []
  granted := []

/-- The holder of the lock reads the clock, and returns with a token or sleeps. -/
def readClock (state : LimiterState K) (now : K) : LimiterState K :=
  match state.waiting with
  | [] => state
  | call :: waiting =>
    let level := limiter.bucket.refill now state.level
    if 1 ≤ level.tokens then
      { state with
        level := TokenBucket.takeToken level
        waiting := waiting
        wakeAt := none
        returned := call :: state.returned
        granted := now :: state.granted }
    else { state with level := level, wakeAt := some (now + limiter.waitTime level) }

def next (state : LimiterState K) : LimiterEvent K → LimiterState K
  | .acquire =>
    if limiter.maxRate ≤ 0 then { state with calls := state.calls + 1, returned := state.calls :: state.returned }
    else { state with calls := state.calls + 1, waiting := state.waiting ++ [state.calls] }
  | .wake now => limiter.readClock state now

def machine (createdAt : K) : Machine (LimiterState K) (LimiterEvent K) where
  start := limiter.start createdAt
  next := limiter.next

/-- The clock is monotonic. -/
def ClockAdvances (state : LimiterState K) : LimiterEvent K → Prop
  | .acquire => True
  | .wake now => state.level.updatedAt ≤ now

/-- The holder has slept as long as it computed. -/
def SleptEnough (state : LimiterState K) : LimiterEvent K → Prop
  | .acquire => True
  | .wake now => ∀ wakeAt, state.wakeAt = some wakeAt → wakeAt ≤ now

/-! ## What the limiter promises -/

/-- The states that follow a state. -/
def after (state : LimiterState K) (later : ℕ → LimiterEvent K) : ℕ → LimiterState K
  | 0 => state
  | steps + 1 => limiter.next (after state later steps) (later steps)

/-- The sleeps are kept, and the holders of the lock go on reading the clock. -/
structure Continues (state : LimiterState K) (later : ℕ → LimiterEvent K) : Prop where
  advances : ∀ steps, ClockAdvances (limiter.after state later steps) (later steps)
  sleeps : ∀ steps, SleptEnough (limiter.after state later steps) (later steps)
  reads : ∀ steps, ∃ more ≥ steps, ∃ now, later more = .wake now

/-- A holder whose sleep is over returns at its next reading. -/
def GrantsInTime (state : LimiterState K) : Prop :=
  ∀ call waiting now wakeAt, state.waiting = call :: waiting → state.wakeAt = some wakeAt → wakeAt ≤ now →
    state.level.updatedAt ≤ now →
    (limiter.readClock state now).waiting = waiting ∧ call ∈ (limiter.readClock state now).returned

/-- Every call returns after finitely many events. -/
def GrantsAll (state : LimiterState K) : Prop :=
  ∀ later, limiter.Continues state later → ∀ call < state.calls, ∃ steps, call ∈ (limiter.after state later steps).returned

/-- No window of time has more grants than the burst and the rate allow. -/
def Bounds (state : LimiterState K) : Prop :=
  ∀ first last, first ≤ last →
    (TokenBucket.countWithin first last state.granted : K) ≤
      limiter.maxRate + (last - first) * (limiter.maxRate / limiter.timePeriod)

def LimitsFairly : Prop :=
  ∀ createdAt events, (limiter.machine createdAt).StepsMeet ClockAdvances (limiter.start createdAt) events →
    let state := (limiter.machine createdAt).run events
    limiter.GrantsInTime state ∧ limiter.GrantsAll state ∧ limiter.Bounds state

/-! ## Invariants of a run -/

structure Keeps (state : LimiterState K) : Prop where
  accounts : limiter.bucket.Accounts state.level state.granted
  sleeps : ∀ wakeAt, state.wakeAt = some wakeAt → wakeAt = state.level.updatedAt + limiter.bucket.timeToToken state.level
  known : ∀ call < state.calls, call ∈ state.waiting ∨ call ∈ state.returned

variable {limiter} {state : LimiterState K}

omit [LinearOrder K] [IsStrictOrderedRing K] in
theorem waitTime_eq (level : TokenLevel K) : limiter.waitTime level = limiter.bucket.timeToToken level :=
  (div_div_eq_mul_div _ _ _).symm

omit [IsStrictOrderedRing K] in
variable (limiter) in
/-- What a reading of the clock can do. -/
theorem readClock_cases (state : LimiterState K) (now : K) :
    (state.waiting = [] ∧ limiter.readClock state now = state) ∨
      ∃ call waiting, state.waiting = call :: waiting ∧
        ((1 ≤ (limiter.bucket.refill now state.level).tokens ∧
            limiter.readClock state now =
              { state with
                level := TokenBucket.takeToken (limiter.bucket.refill now state.level)
                waiting := waiting
                wakeAt := none
                returned := call :: state.returned
                granted := now :: state.granted }) ∨
          ((limiter.bucket.refill now state.level).tokens < 1 ∧
            limiter.readClock state now =
              { state with
                level := limiter.bucket.refill now state.level
                wakeAt := some (now + limiter.waitTime (limiter.bucket.refill now state.level)) })) := by
  cases isWaiting : state.waiting with
  | nil => exact .inl ⟨rfl, by simp [readClock, isWaiting]⟩
  | cons call waiting =>
    refine .inr ⟨call, waiting, rfl, ?_⟩
    by_cases hasToken : 1 ≤ (limiter.bucket.refill now state.level).tokens
    · exact .inl ⟨hasToken, by simp [readClock, isWaiting, hasToken]⟩
    · exact .inr ⟨not_le.mp hasToken, by simp [readClock, isWaiting, hasToken]⟩

/-- How far a waiting call is from its return: two readings for each call before it, and one for a sleep to begin. -/
def distance (call : ℕ) (state : LimiterState K) : ℕ :=
  2 * state.waiting.idxOf call + if state.wakeAt = none then 1 else 0

omit [IsStrictOrderedRing K] in
variable (limiter) in
theorem waiting_acquire (call : ℕ) (isWaiting : call ∈ state.waiting) :
    call ∈ (limiter.next state .acquire).waiting ∧ distance call (limiter.next state .acquire) = distance call state := by
  rw [AsyncRateLimiter.next]
  split
  case isTrue => exact ⟨isWaiting, rfl⟩
  case isFalse =>
    refine ⟨List.mem_append_left _ isWaiting, ?_⟩
    simp only [distance, List.idxOf_append_of_mem isWaiting]

omit [IsStrictOrderedRing K] in
theorem Keeps.bounds (keeps : limiter.Keeps state) : limiter.Bounds state := keeps.accounts.within

/-! ## Starvation -/

omit [IsStrictOrderedRing K] in
/-- A rate of less than one token also is the capacity, and the holder of the lock never returns. -/
theorem readClock_starves (small : limiter.maxRate < 1) (state : LimiterState K) (now : K) :
    (limiter.readClock state now).waiting = state.waiting ∧ (limiter.readClock state now).returned = state.returned := by
  obtain ⟨_, same⟩ | ⟨_, _, _, ⟨hasToken, _⟩ | ⟨_, same⟩⟩ := readClock_cases limiter state now
  · rw [same]
    exact ⟨rfl, rfl⟩
  · exact absurd hasToken (TokenBucket.tokens_refill_lt_one small now state.level).not_ge
  · rw [same]
    exact ⟨rfl, rfl⟩

theorem not_limitsFairly_of_small (positive : 0 < limiter.maxRate) (small : limiter.maxRate < 1) : ¬limiter.LimitsFairly := by
  intro fair
  generalize isCalled : limiter.next (limiter.start 0) .acquire = called at *
  have isWaiting : called.waiting = [0] := by
    rw [← isCalled, AsyncRateLimiter.next, if_neg positive.not_ge]
    rfl
  have meets : (limiter.machine 0).StepsMeet ClockAdvances (limiter.start 0) [.acquire, .wake 0] := by
    refine ⟨trivial, ?_, trivial⟩
    change ClockAdvances (limiter.next (limiter.start 0) .acquire) (.wake 0)
    rw [AsyncRateLimiter.next, if_neg positive.not_ge]
    exact le_rfl
  have inTime : limiter.GrantsInTime (limiter.readClock called 0) := by
    have granted := (fair 0 [.acquire, .wake 0] meets).1
    rw [← isCalled]
    exact granted
  obtain ⟨none, _⟩ | ⟨_, _, _, ⟨hasToken, _⟩ | ⟨_, same⟩⟩ := readClock_cases limiter called 0
  · simp [none] at isWaiting
  · exact absurd hasToken (TokenBucket.tokens_refill_lt_one small 0 called.level).not_ge
  · rw [same] at inTime
    have returns := (inTime 0 [] _ _ isWaiting rfl (le_max_left _ _) (le_max_right _ _)).1
    rw [(readClock_starves small _ _).1] at returns
    simp [isWaiting] at returns

/-! ## Runs -/

section Positive

variable (positive : 0 < limiter.maxRate) (periodPositive : 0 < limiter.timePeriod)

include positive periodPositive

theorem refillRate_pos : 0 < limiter.bucket.refillRate := div_pos positive periodPositive

theorem keeps_start (createdAt : K) : limiter.Keeps (limiter.start createdAt) where
  accounts := by
    have full : max 0 limiter.maxRate = limiter.bucket.capacity := max_eq_right positive.le
    rw [start, full]
    exact TokenBucket.accounts_start positive.le (refillRate_pos positive periodPositive).le createdAt
  sleeps wakeAt isSleeping := by cases isSleeping
  known call isCall := by cases isCall

theorem Keeps.next (keeps : limiter.Keeps state) (event : LimiterEvent K) (advances : ClockAdvances state event) :
    limiter.Keeps (limiter.next state event) := by
  cases event with
  | acquire =>
    rw [AsyncRateLimiter.next, if_neg positive.not_ge]
    refine ⟨keeps.accounts, keeps.sleeps, fun call isCall => ?_⟩
    cases Nat.lt_succ_iff_lt_or_eq.mp isCall with
    | inl earlier => exact (keeps.known call earlier).imp_left (List.mem_append_left _)
    | inr same => exact .inl (by simp [same])
  | wake now =>
    have refills := (refillRate_pos positive periodPositive).le
    have refilled := keeps.accounts.refill refills advances
    rw [AsyncRateLimiter.next]
    obtain ⟨_, same⟩ | ⟨call, waiting, isWaiting, ⟨hasToken, same⟩ | ⟨_, same⟩⟩ := readClock_cases limiter state now
    · rw [same]
      exact keeps
    · rw [same]
      refine ⟨refilled.takeToken refills hasToken, by simp, fun other isCall => ?_⟩
      have known := keeps.known other isCall
      rw [isWaiting, List.mem_cons] at known
      obtain (isHead | isTail) | isReturned := known
      · exact .inr (isHead ▸ .head _)
      · exact .inl isTail
      · exact .inr (.tail _ isReturned)
    · rw [same]
      refine ⟨refilled, fun wakeAt isSleeping => ?_, keeps.known⟩
      rw [← Option.some.inj isSleeping, waitTime_eq]
      rfl

theorem keeps_run (createdAt : K) (events : List (LimiterEvent K))
    (meets : (limiter.machine createdAt).StepsMeet ClockAdvances (limiter.start createdAt) events) :
    limiter.Keeps ((limiter.machine createdAt).run events) :=
  (limiter.machine createdAt).runFrom_invariant limiter.Keeps ClockAdvances
    (fun _ event advances keeps => keeps.next positive periodPositive event advances) _ events
    (keeps_start positive periodPositive createdAt) meets

theorem Keeps.grantsInTime (keeps : limiter.Keeps state) (large : 1 ≤ limiter.maxRate) : limiter.GrantsInTime state := by
  intro call waiting now wakeAt isWaiting isSleeping late advances
  rw [keeps.sleeps wakeAt isSleeping] at late
  have hasToken := TokenBucket.one_le_tokens_refill (refillRate_pos positive periodPositive) large late
  simp [readClock, isWaiting, hasToken]

/-- Every reading after a full sleep brings the waiting calls nearer to their returns. -/
theorem Keeps.distance_lt (keeps : limiter.Keeps state) (large : 1 ≤ limiter.maxRate) {call : ℕ} {now : K}
    (isWaiting : call ∈ state.waiting) (slept : SleptEnough state (.wake now))
    (notReturned : call ∉ (limiter.readClock state now).returned) :
    call ∈ (limiter.readClock state now).waiting ∧
      distance call (limiter.readClock state now) < distance call state := by
  obtain ⟨none, _⟩ | ⟨head, waiting, isHead, ⟨_, same⟩ | ⟨noToken, same⟩⟩ := readClock_cases limiter state now
  · simp [none] at isWaiting
  · rw [same] at notReturned ⊢
    rw [isHead, List.mem_cons] at isWaiting
    have notHead : call ≠ head := fun isCall => notReturned (isCall ▸ .head _)
    have isTail := isWaiting.resolve_left notHead
    refine ⟨isTail, ?_⟩
    simp only [distance, isHead, List.idxOf_cons_ne waiting notHead.symm]
    split_ifs <;> omega
  · -- The sleep has only begun, for after one there is a token.
    have awake : state.wakeAt = none := by
      by_contra sleeping
      obtain ⟨wakeAt, isSleeping⟩ := Option.ne_none_iff_exists'.mp sleeping
      have late := slept wakeAt isSleeping
      rw [keeps.sleeps wakeAt isSleeping] at late
      exact noToken.not_ge (TokenBucket.one_le_tokens_refill (refillRate_pos positive periodPositive) large late)
    rw [same]
    refine ⟨isWaiting, ?_⟩
    simp [distance, awake]

theorem Keeps.after (keeps : limiter.Keeps state) {later : ℕ → LimiterEvent K}
    (continues : limiter.Continues state later) (steps : ℕ) : limiter.Keeps (limiter.after state later steps) := by
  induction steps with
  | zero => exact keeps
  | succ steps inductionHypothesis =>
    exact inductionHypothesis.next positive periodPositive (later steps) (continues.advances steps)

theorem Keeps.grantsAll (keeps : limiter.Keeps state) (large : 1 ≤ limiter.maxRate) : limiter.GrantsAll state := by
  intro later continues call isCall
  by_contra never
  push Not at never
  let remaining : ℕ → ℕ := fun steps => distance call (limiter.after state later steps)
  have nearer : ∀ steps, call ∈ (limiter.after state later steps).waiting →
      call ∈ (limiter.after state later (steps + 1)).waiting ∧ remaining (steps + 1) ≤ remaining steps ∧
        ∀ now, later steps = .wake now → remaining (steps + 1) < remaining steps := by
    intro steps isWaiting
    have keepsNow := keeps.after positive periodPositive continues steps
    have slept := continues.sleeps steps
    have notReturned := never (steps + 1)
    simp only [remaining, AsyncRateLimiter.after] at notReturned ⊢
    cases isEvent : later steps with
    | acquire =>
      obtain ⟨stays, same⟩ := waiting_acquire limiter call isWaiting
      exact ⟨stays, same.le, by simp⟩
    | wake now =>
      rw [isEvent] at slept notReturned
      obtain ⟨stays, less⟩ := keepsNow.distance_lt positive periodPositive large isWaiting slept notReturned
      exact ⟨stays, less.le, fun _ _ => less⟩
  have waits : ∀ steps, call ∈ (limiter.after state later steps).waiting := by
    intro steps
    induction steps with
    | zero => exact (keeps.known call isCall).resolve_right (never 0)
    | succ steps inductionHypothesis => exact (nearer steps inductionHypothesis).1
  have antitone : Antitone remaining := antitone_nat_of_succ_le fun steps => (nearer steps (waits steps)).2.1
  -- There are infinitely many readings, and each takes something from a number.
  have descends : ∀ readings, ∃ steps, remaining steps + readings ≤ remaining 0 := by
    intro readings
    induction readings with
    | zero => exact ⟨0, le_rfl⟩
    | succ readings inductionHypothesis =>
      obtain ⟨steps, below⟩ := inductionHypothesis
      obtain ⟨more, isLater, now, isReading⟩ := continues.reads steps
      have lower := antitone isLater
      have less := (nearer more (waits more)).2.2 now isReading
      exact ⟨more + 1, by omega⟩
  obtain ⟨steps, below⟩ := descends (remaining 0 + 1)
  omega

end Positive

/-- The limiter keeps its promises exactly if its rate is at least one. -/
theorem limitsFairly_iff (limiter : AsyncRateLimiter K) (positive : 0 < limiter.maxRate)
    (periodPositive : 0 < limiter.timePeriod) : limiter.LimitsFairly ↔ 1 ≤ limiter.maxRate := by
  constructor
  · intro fair
    by_contra small
    exact not_limitsFairly_of_small positive (not_le.mp small) fair
  · intro large createdAt events meets
    have keeps := keeps_run positive periodPositive createdAt events meets
    exact ⟨keeps.grantsInTime positive periodPositive large, keeps.grantsAll positive periodPositive large,
      keeps.bounds⟩

theorem limitsFairly_iff_two : (⟨2, 1⟩ : AsyncRateLimiter ℚ).LimitsFairly ↔ (1 : ℚ) ≤ 2 :=
  limitsFairly_iff ⟨2, 1⟩ (by norm_num) (by norm_num)

/-- One request every two seconds. -/
theorem not_limitsFairly_half : ¬(⟨1 / 2, 1⟩ : AsyncRateLimiter ℚ).LimitsFairly :=
  not_limitsFairly_of_small (by norm_num) (by norm_num)

end AsyncRateLimiter

end CutPlan.Controller
