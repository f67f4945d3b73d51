import CutPlan.Lib.Rounding
import Mathlib.Tactic.LinearCombination

/-! # Formats of floating-point numbers

A format has a number of binary digits and a least exponent: its magnitudes are the multiples of a power of two with so
many digits, and finer ones of a fixed spacing next to zero.  A magnitude is rounded to the nearest one, ties to even,
and a magnitude above the greatest finite one is left to the user of the format.
-/

namespace CutPlan.Lib

/-- The multiples of a power of two. -/
def OnGrid (exponent : ℤ) (value : ℚ) : Prop := ∃ multiple : ℤ, value = multiple * 2 ^ exponent

namespace OnGrid

variable {exponent finer : ℤ} {value other : ℚ}

theorem pow_pos (exponent : ℤ) : (0 : ℚ) < 2 ^ exponent := zpow_pos (by norm_num) exponent

theorem of_le (onGrid : OnGrid exponent value) (isFiner : finer ≤ exponent) : OnGrid finer value := by
  obtain ⟨multiple, rfl⟩ := onGrid
  obtain ⟨steps, isSteps⟩ := Int.eq_ofNat_of_zero_le (show 0 ≤ exponent - finer by omega)
  have split : exponent = steps + finer := by omega
  refine ⟨multiple * 2 ^ steps, ?_⟩
  rw [split, zpow_add₀ (by norm_num), zpow_natCast]
  push_cast
  ring

theorem pow (exponent : ℤ) : OnGrid exponent (2 ^ exponent) := ⟨1, by simp⟩

theorem sub (first : OnGrid exponent value) (second : OnGrid exponent other) : OnGrid exponent (value - other) := by
  obtain ⟨multiple, rfl⟩ := first
  obtain ⟨otherMultiple, rfl⟩ := second
  exact ⟨multiple - otherMultiple, by push_cast; ring⟩

theorem add (first : OnGrid exponent value) (second : OnGrid exponent other) : OnGrid exponent (value + other) := by
  obtain ⟨multiple, rfl⟩ := first
  obtain ⟨otherMultiple, rfl⟩ := second
  exact ⟨multiple + otherMultiple, by push_cast; ring⟩

/-- Two different multiples are at least one step apart. -/
theorem add_pow_le (first : OnGrid exponent value) (second : OnGrid exponent other) (less : value < other) :
    value + 2 ^ exponent ≤ other := by
  obtain ⟨multiple, rfl⟩ := first
  obtain ⟨otherMultiple, rfl⟩ := second
  have positive := pow_pos exponent
  have lessMultiple : multiple < otherMultiple := by exact_mod_cast lt_of_mul_lt_mul_right less positive.le
  have step : (multiple : ℚ) + 1 ≤ otherMultiple := by exact_mod_cast lessMultiple
  nlinarith

end OnGrid

theorem nearestEven_near (value : ℚ) : value - 1 / 2 ≤ nearestEven value ∧ (nearestEven value : ℚ) ≤ value + 1 / 2 := by
  have floor_le := Int.floor_le value
  have lt_floor := Int.lt_floor_add_one value
  rw [nearestEven]
  split_ifs <;> push_cast <;> constructor <;> linarith

theorem nearestEven_lt {bound : ℤ} {value : ℚ} (below : value < bound - 1 / 2) : nearestEven value < bound := by
  have near := (nearestEven_near value).2
  exact_mod_cast (show (nearestEven value : ℚ) < bound by linarith)

theorem lt_nearestEven {bound : ℤ} {value : ℚ} (above : (bound : ℚ) + 1 / 2 < value) : bound < nearestEven value := by
  have near := (nearestEven_near value).1
  exact_mod_cast (show (bound : ℚ) < nearestEven value by linarith)

/-- The even one of two neighbours wins a tie. -/
theorem le_nearestEven_of_even {bound : ℤ} {value : ℚ} (isEven : 2 ∣ bound) (near : (bound : ℚ) - 1 / 2 ≤ value) :
    bound ≤ nearestEven value := by
  by_contra less
  have rounded := (nearestEven_near value).1
  have below : (nearestEven value : ℚ) + 1 ≤ bound := by exact_mod_cast (show nearestEven value + 1 ≤ bound by omega)
  have isHalf : value = bound - 1 / 2 := by linarith
  have isFloor : ⌊value⌋ = bound - 1 := by
    rw [Int.floor_eq_iff, isHalf]
    push_cast
    constructor <;> linarith
  rw [nearestEven, isFloor, isHalf] at less
  push_cast at less
  split_ifs at less with below above even
  · linarith
  · omega
  · omega
  · omega

/-- How many digits the numbers have, and the exponent of the finest ones. -/
structure FloatingFormat where
  digits : ℕ
  leastExponent : ℤ
  someDigits : 2 ≤ digits

namespace FloatingFormat

/-- The format of doubles. -/
def double : FloatingFormat := ⟨53, -1074, by decide⟩

variable (format : FloatingFormat)

/-- The exponent of the last digit of a magnitude. -/
def exponent (magnitude : ℚ) : ℤ := max (Int.log 2 magnitude + 1 - format.digits) format.leastExponent

def round (magnitude : ℚ) : ℚ :=
  nearestEven (magnitude / 2 ^ format.exponent magnitude) * 2 ^ format.exponent magnitude

/-- The magnitude is one of the format, or greater than all of them. -/
def Holds (magnitude : ℚ) : Prop :=
  ∃ significand : ℕ, ∃ exponent : ℤ, significand < 2 ^ format.digits ∧ format.leastExponent ≤ exponent ∧
    magnitude = significand * 2 ^ exponent

variable {format} {first second magnitude : ℚ}

theorem Holds.nonneg (holds : format.Holds magnitude) : 0 ≤ magnitude := by
  obtain ⟨significand, exponent, _, _, rfl⟩ := holds
  have positive := OnGrid.pow_pos exponent
  positivity

variable (format) in
theorem leastExponent_le_exponent (magnitude : ℚ) : format.leastExponent ≤ format.exponent magnitude := le_max_right _ _

variable (format) in
theorem exponent_mono (positive : 0 < first) (ordered : first ≤ second) :
    format.exponent first ≤ format.exponent second := by
  have logs : Int.log 2 first ≤ Int.log 2 second := Int.log_mono_right positive ordered
  exact max_le_max_right _ (by omega)

variable (format) in
/-- A magnitude has at most all the digits. -/
theorem lt_zpow_exponent (magnitude : ℚ) : magnitude < 2 ^ ((format.digits : ℤ) + format.exponent magnitude) := by
  have below := Int.lt_zpow_succ_log_self (b := 2) (by decide) magnitude
  refine below.trans_le (zpow_le_zpow_right₀ (by norm_num) ?_)
  have digits : Int.log 2 magnitude + 1 - format.digits ≤ format.exponent magnitude := le_max_left _ _
  omega

/-- A magnitude is on the grid of its own last digit. -/
theorem Holds.onGrid (holds : format.Holds magnitude) : OnGrid (format.exponent magnitude) magnitude := by
  obtain ⟨significand, exponent, short, isExponent, rfl⟩ := holds
  cases significand.eq_zero_or_pos with
  | inl isZero => exact ⟨0, by simp [isZero]⟩
  | inr isPositive =>
    have powerPositive := OnGrid.pow_pos exponent
    have positive : (0 : ℚ) < significand * 2 ^ exponent := mul_pos (by exact_mod_cast isPositive) powerPositive
    have below : (significand : ℚ) * 2 ^ exponent < 2 ^ ((format.digits : ℤ) + exponent) := by
      rw [zpow_add₀ (by norm_num), zpow_natCast]
      exact mul_lt_mul_of_pos_right (by exact_mod_cast short) powerPositive
    have log : Int.log 2 ((significand : ℚ) * 2 ^ exponent) < (format.digits : ℤ) + exponent :=
      (Int.lt_zpow_iff_log_lt (by decide) positive).mp (by exact_mod_cast below)
    have coarser : format.exponent ((significand : ℚ) * 2 ^ exponent) ≤ exponent := max_le (by omega) isExponent
    exact OnGrid.of_le ⟨significand, by push_cast; rfl⟩ coarser

/-- Multiples of a power of two that are short enough belong to the format. -/
theorem holds_of_onGrid {exponent : ℤ} (onGrid : OnGrid exponent magnitude) (nonnegative : 0 ≤ magnitude)
    (isExponent : format.leastExponent ≤ exponent) (short : magnitude ≤ 2 ^ ((format.digits : ℤ) + exponent)) :
    format.Holds magnitude := by
  obtain ⟨multiple, rfl⟩ := onGrid
  have powerPositive := OnGrid.pow_pos exponent
  have multipleNonneg : 0 ≤ multiple := by
    by_contra negative
    have multipleNeg : (multiple : ℚ) < 0 := by exact_mod_cast not_le.mp negative
    exact absurd nonnegative (mul_neg_of_neg_of_pos multipleNeg powerPositive).not_ge
  obtain ⟨significand, rfl⟩ := Int.eq_ofNat_of_zero_le multipleNonneg
  rw [zpow_add₀ (by norm_num), zpow_natCast] at short
  have significandShort : significand ≤ 2 ^ format.digits := by
    have bound : (significand : ℚ) ≤ 2 ^ format.digits := le_of_mul_le_mul_right (by simpa using short) powerPositive
    exact_mod_cast bound
  cases significandShort.lt_or_eq with
  | inl less => exact ⟨significand, exponent, less, isExponent, by simp⟩
  | inr same =>
    -- All digits have been used up, and one with a greater exponent does.
    have someDigits := format.someDigits
    refine ⟨2 ^ (format.digits - 1), exponent + 1, Nat.pow_lt_pow_right (by decide) (by omega), by omega, ?_⟩
    obtain ⟨rest, isRest⟩ : ∃ rest, format.digits = rest + 1 := ⟨format.digits - 1, by omega⟩
    rw [same, isRest, zpow_add₀ (by norm_num)]
    push_cast
    rw [pow_succ]
    ring

theorem holds_pow {exponent : ℤ} (isExponent : format.leastExponent ≤ exponent) : format.Holds (2 ^ exponent) :=
  holds_of_onGrid (.pow exponent) (OnGrid.pow_pos exponent).le isExponent (zpow_le_zpow_right₀ (by norm_num) (by omega))

@[simp] theorem holds_zero : format.Holds 0 := ⟨0, format.leastExponent, by simp, le_rfl, by simp⟩

/-- The grid of a magnitude has all numbers of the format from the greatest power of two below the magnitude on. -/
theorem Holds.onGrid_of_le (holds : format.Holds first) (above : 2 ^ Int.log 2 second ≤ first) : OnGrid (format.exponent second) first := by
  have logs : Int.log 2 second ≤ Int.log 2 first := by
    have mono : Int.log 2 ((2 : ℚ) ^ Int.log 2 second) ≤ Int.log 2 first :=
      Int.log_mono_right (OnGrid.pow_pos _) above
    have logPow : Int.log 2 ((2 : ℚ) ^ Int.log 2 second) = Int.log 2 second := by
      have log := Int.log_zpow (R := ℚ) (b := 2) (by decide) (Int.log 2 second)
      exact_mod_cast log
    omega
  exact holds.onGrid.of_le (max_le_max_right _ (by omega))

theorem pow_log_le (positive : 0 < magnitude) : (2 : ℚ) ^ Int.log 2 magnitude ≤ magnitude := by
  have below := Int.zpow_log_le_self (b := 2) (by decide) positive
  exact_mod_cast below

theorem Holds.onGrid_least (holds : format.Holds magnitude) : OnGrid format.leastExponent magnitude := by
  obtain ⟨significand, exponent, _, isExponent, rfl⟩ := holds
  exact OnGrid.of_le ⟨significand, by simp⟩ isExponent

/-- A magnitude whose last digit is not the finest one has all digits. -/
theorem exponent_le_log (notFinest : format.leastExponent < format.exponent magnitude) :
    format.exponent magnitude = Int.log 2 magnitude + 1 - format.digits := by
  rw [exponent] at notFinest ⊢
  omega

/-- A number of the format is on the grid of a magnitude or is less than the greatest power of two below the
magnitude, which is then on that grid. -/
theorem Holds.onGrid_cases (holds : format.Holds first) (second : ℚ) :
    OnGrid (format.exponent second) first ∨
      first < 2 ^ Int.log 2 second ∧ OnGrid (format.exponent second) (2 ^ Int.log 2 second) := by
  by_cases above : (2 : ℚ) ^ Int.log 2 second ≤ first
  · exact .inl (holds.onGrid_of_le above)
  · cases (format.leastExponent_le_exponent second).eq_or_lt with
    | inl finest => exact .inl (finest ▸ holds.onGrid_least)
    | inr notFinest =>
      have someDigits := format.someDigits
      exact .inr ⟨not_le.mp above, (OnGrid.pow _).of_le (by rw [exponent_le_log notFinest]; omega)⟩

theorem round_le_of_onGrid {bound : ℚ} (onGrid : OnGrid (format.exponent magnitude) bound) (below : magnitude ≤ bound) :
    format.round magnitude ≤ bound := by
  obtain ⟨multiple, rfl⟩ := onGrid
  have positive := OnGrid.pow_pos (format.exponent magnitude)
  refine mul_le_mul_of_nonneg_right ?_ positive.le
  exact_mod_cast nearestEven_le ((div_le_iff₀ positive).mpr below)

theorem le_round_of_onGrid {bound : ℚ} (onGrid : OnGrid (format.exponent magnitude) bound) (above : bound ≤ magnitude) :
    bound ≤ format.round magnitude := by
  obtain ⟨multiple, rfl⟩ := onGrid
  have positive := OnGrid.pow_pos (format.exponent magnitude)
  refine mul_le_mul_of_nonneg_right ?_ positive.le
  exact_mod_cast le_nearestEven ((le_div_iff₀ positive).mpr above)

@[simp] theorem round_zero : format.round 0 = 0 := by
  have rounded := nearestEven_intCast 0
  rw [Int.cast_zero] at rounded
  simp [round, rounded]

theorem Holds.round_le (holds : format.Holds second) (nonnegative : 0 ≤ first) (ordered : first ≤ second) :
    format.round first ≤ second := by
  cases nonnegative.eq_or_lt with
  | inl isZero => simp [← isZero, holds.nonneg]
  | inr positive => exact round_le_of_onGrid (holds.onGrid.of_le (format.exponent_mono positive ordered)) ordered

theorem Holds.le_round (holds : format.Holds first) (ordered : first ≤ second) : first ≤ format.round second := by
  cases (holds.nonneg.trans ordered).eq_or_lt with
  | inl isZero => simpa [← isZero] using ordered
  | inr positive =>
    cases holds.onGrid_cases second with
    | inl onGrid => exact le_round_of_onGrid onGrid ordered
    | inr below => exact below.1.le.trans (le_round_of_onGrid below.2 (pow_log_le positive))

theorem Holds.round_eq (holds : format.Holds magnitude) : format.round magnitude = magnitude :=
  (holds.round_le holds.nonneg le_rfl).antisymm (holds.le_round le_rfl)

variable (format) in
theorem round_nonneg (nonnegative : 0 ≤ magnitude) : 0 ≤ format.round magnitude :=
  holds_zero.le_round nonnegative

theorem holds_round (nonnegative : 0 ≤ magnitude) : format.Holds (format.round magnitude) := by
  have bound : OnGrid (format.exponent magnitude) (2 ^ ((format.digits : ℤ) + format.exponent magnitude)) :=
    (OnGrid.pow _).of_le (by omega)
  exact holds_of_onGrid ⟨_, rfl⟩ (format.round_nonneg nonnegative) (format.leastExponent_le_exponent magnitude)
    (round_le_of_onGrid bound (format.lt_zpow_exponent magnitude).le)

variable (format) in
theorem round_mono (nonnegative : 0 ≤ first) (ordered : first ≤ second) : format.round first ≤ format.round second := by
  cases nonnegative.eq_or_lt with
  | inl isZero => simpa [← isZero] using format.round_nonneg (nonnegative.trans ordered)
  | inr positive =>
    cases (format.exponent_mono positive ordered).eq_or_lt with
    | inl same =>
      rw [round, round, same]
      have powerPositive := OnGrid.pow_pos (format.exponent second)
      refine mul_le_mul_of_nonneg_right ?_ powerPositive.le
      exact_mod_cast nearestEven_mono (div_le_div_of_nonneg_right ordered powerPositive.le)
    | inr lower =>
      -- The power of two below the greater magnitude lies between the two.
      have notFinest := (format.leastExponent_le_exponent first).trans_lt lower
      have isExponent := exponent_le_log notFinest
      have digits : Int.log 2 first + 1 - format.digits ≤ format.exponent first := le_max_left _ _
      have someDigits := format.someDigits
      have below : first ≤ 2 ^ Int.log 2 second := by
        have lessPow := Int.lt_zpow_succ_log_self (b := 2) (by decide) first
        exact lessPow.le.trans (zpow_le_zpow_right₀ (by norm_num) (by omega))
      have least := format.leastExponent_le_exponent second
      have holds : format.Holds (2 ^ Int.log 2 second) := holds_pow (by omega)
      exact (holds.round_le nonnegative below).trans (holds.le_round (pow_log_le (positive.trans_le ordered)))

/-! ## The nearest number -/

/-- A magnitude nearer to a lesser number of the format is rounded to less. -/
theorem round_lt (firstHolds : format.Holds first) (secondHolds : format.Holds second) (less : first < second)
    (nonnegative : 0 ≤ magnitude) (near : 2 * magnitude < first + second) : format.round magnitude < second := by
  by_cases above : first < magnitude
  · have positive := firstHolds.nonneg.trans_lt above
    have powerPositive := OnGrid.pow_pos (format.exponent magnitude)
    have below : magnitude < second := by linarith
    have secondOnGrid := secondHolds.onGrid.of_le (format.exponent_mono positive below.le)
    have isStep : first + 2 ^ format.exponent magnitude ≤ second := by
      cases firstHolds.onGrid_cases magnitude with
      | inl onGrid => exact onGrid.add_pow_le secondOnGrid less
      | inr power =>
        have step := power.2.add_pow_le secondOnGrid ((pow_log_le positive).trans_lt below)
        linarith [power.1]
    obtain ⟨multiple, rfl⟩ := secondOnGrid
    refine mul_lt_mul_of_pos_right ?_ powerPositive
    have nearer : magnitude / 2 ^ format.exponent magnitude < multiple - 1 / 2 := by
      rw [div_lt_iff₀ powerPositive]
      linarith
    exact_mod_cast nearestEven_lt nearer
  · exact (firstHolds.round_le nonnegative (not_lt.mp above)).trans_lt less

/-- A magnitude nearer to a greater number of the format is rounded to more. -/
theorem lt_round (firstHolds : format.Holds first) (secondHolds : format.Holds second) (less : first < second)
    (near : first + second < 2 * magnitude) : first < format.round magnitude := by
  by_cases below : magnitude < second
  · have positive : 0 < magnitude := by linarith [firstHolds.nonneg, secondHolds.nonneg]
    have powerPositive := OnGrid.pow_pos (format.exponent magnitude)
    obtain ⟨multiple, rfl⟩ := secondHolds.onGrid.of_le (format.exponent_mono positive below.le)
    have rounded := (nearestEven_near (magnitude / 2 ^ format.exponent magnitude)).1
    rw [round]
    have isMagnitude : magnitude = magnitude / 2 ^ format.exponent magnitude * 2 ^ format.exponent magnitude :=
      (div_mul_cancel₀ _ powerPositive.ne').symm
    generalize magnitude / 2 ^ format.exponent magnitude = scaled at rounded isMagnitude ⊢
    generalize nearestEven scaled = nearest at rounded ⊢
    generalize (2 : ℚ) ^ format.exponent magnitude = power at *
    cases lt_or_ge nearest multiple with
    | inl lower =>
      have step : (nearest : ℚ) + 1 ≤ multiple := by exact_mod_cast lower
      have bound : first < (2 * scaled - multiple) * power := by
        rw [isMagnitude] at near
        linarith
      exact bound.trans_le (mul_le_mul_of_nonneg_right (by linarith) powerPositive.le)
    | inr above =>
      have bound : (multiple : ℚ) ≤ nearest := by exact_mod_cast above
      exact less.trans_le (mul_le_mul_of_nonneg_right bound powerPositive.le)
  · exact less.trans_le (secondHolds.le_round (not_lt.mp below))

/-! ## Differences -/

/-- Up to here every difference of numbers of the format is one of the format. -/
def finestRange (format : FloatingFormat) : ℚ := 2 ^ ((format.digits : ℤ) + format.leastExponent)

/-- A difference is exact if it is at most the lesser number, or between small numbers. -/
theorem Holds.sub (firstHolds : format.Holds first) (secondHolds : format.Holds second) (ordered : second ≤ first)
    (near : first ≤ 2 * second ∨ first ≤ format.finestRange) : format.Holds (first - second) := by
  cases near with
  | inl near =>
    cases secondHolds.nonneg.eq_or_lt with
    | inl isZero =>
      have firstZero : first = 0 := by linarith [firstHolds.nonneg]
      simp [firstZero, ← isZero]
    | inr positive =>
      have onGrid := (firstHolds.onGrid.of_le (format.exponent_mono positive ordered)).sub secondHolds.onGrid
      exact holds_of_onGrid onGrid (by linarith) (format.leastExponent_le_exponent second)
        (by linarith [format.lt_zpow_exponent second])
  | inr small =>
    have onGrid := firstHolds.onGrid_least.sub secondHolds.onGrid_least
    exact holds_of_onGrid onGrid (by linarith) le_rfl (by rw [finestRange] at small; linarith [secondHolds.nonneg])

/-- Above the finest numbers, the exponent of a magnitude and of its half. -/
theorem exponent_of_finestRange_lt (large : format.finestRange < magnitude) :
    format.leastExponent < format.exponent magnitude := by
  have below := large.trans (format.lt_zpow_exponent magnitude)
  have exponents := (zpow_lt_zpow_iff_right₀ (by norm_num)).mp below
  omega

theorem two_mul_pow (exponent : ℤ) : 2 * (2 : ℚ) ^ (exponent - 1) = 2 ^ exponent := by
  have isSucc : exponent = exponent - 1 + 1 := by omega
  rw [isSucc, zpow_add₀ (by norm_num)]
  simp
  ring

variable (format) in
theorem half_lt_pow (magnitude : ℚ) : magnitude / 2 < 2 ^ ((format.digits : ℤ) + (format.exponent magnitude - 1)) := by
  have below := format.lt_zpow_exponent magnitude
  have bound := two_mul_pow ((format.digits : ℤ) + format.exponent magnitude)
  rw [← add_sub_assoc]
  linarith

theorem Holds.half_onGrid (holds : format.Holds magnitude) : OnGrid (format.exponent magnitude - 1) (magnitude / 2) := by
  obtain ⟨multiple, isMultiple⟩ := holds.onGrid
  have power := two_mul_pow (format.exponent magnitude)
  exact ⟨multiple, by linear_combination (1 / 2) * isMultiple - (multiple / 2) * power⟩

theorem Holds.half (holds : format.Holds magnitude) (large : format.finestRange < magnitude) :
    format.Holds (magnitude / 2) := by
  have notFinest := exponent_of_finestRange_lt large
  exact holds_of_onGrid holds.half_onGrid (by linarith [holds.nonneg]) (by omega) (format.half_lt_pow magnitude).le

/-- Above the finest numbers a magnitude has all digits. -/
theorem log_of_finestRange_lt (large : format.finestRange < magnitude) :
    Int.log 2 magnitude = format.exponent magnitude + format.digits - 1 := by
  have isExponent := exponent_le_log (exponent_of_finestRange_lt large)
  omega

theorem pow_le_half (large : format.finestRange < magnitude) : 2 ^ (format.exponent magnitude - 1) ≤ magnitude / 2 := by
  have isLog := log_of_finestRange_lt large
  have someDigits := format.someDigits
  have powLe := pow_log_le ((OnGrid.pow_pos _).trans large)
  have power := two_mul_pow (format.exponent magnitude)
  have digits : (2 : ℚ) ^ format.exponent magnitude ≤ 2 ^ Int.log 2 magnitude :=
    zpow_le_zpow_right₀ (by norm_num) (by omega)
  linarith

theorem exponent_half (large : format.finestRange < magnitude) :
    format.exponent magnitude - 1 ≤ format.exponent (magnitude / 2) := by
  have isLog := log_of_finestRange_lt large
  have positive : 0 < magnitude := (OnGrid.pow_pos _).trans large
  have powLe := pow_log_le positive
  have power := two_mul_pow (Int.log 2 magnitude)
  have halfLog : Int.log 2 magnitude - 1 ≤ Int.log 2 (magnitude / 2) := by
    rw [← Int.zpow_le_iff_le_log (by decide) (by linarith)]
    push_cast
    linarith
  have digits : Int.log 2 (magnitude / 2) + 1 - format.digits ≤ format.exponent (magnitude / 2) := le_max_left _ _
  omega

theorem Holds.double (holds : format.Holds magnitude) : format.Holds (2 * magnitude) := by
  obtain ⟨significand, exponent, short, isExponent, rfl⟩ := holds
  refine ⟨significand, exponent + 1, short, by omega, ?_⟩
  rw [zpow_add₀ (by norm_num), zpow_one]
  ring

/-- A lesser number is less by at least the last digit of the half. -/
theorem Holds.add_pow_le (firstHolds : format.Holds first) (secondHolds : format.Holds second)
    (large : format.finestRange < second) (less : first < second) : first + 2 ^ (format.exponent second - 1) ≤ second := by
  by_cases near : second / 2 < first
  · have positive : 0 < second := (OnGrid.pow_pos _).trans large
    have exponents := (exponent_half large).trans (format.exponent_mono (by linarith) near.le)
    exact (firstHolds.onGrid.of_le exponents).add_pow_le (secondHolds.onGrid.of_le (by omega)) less
  · linarith [pow_le_half large]

/-- A magnitude less by a quarter of the last digit is rounded up: also below a power of two, where it is in the middle
and the power of two has the even significand. -/
theorem Holds.le_round_of_near (holds : format.Holds magnitude) (large : format.finestRange < magnitude) (nearby : ℚ)
    (below : nearby ≤ magnitude) (near : magnitude ≤ nearby + 2 ^ (format.exponent magnitude - 1) / 2) :
    magnitude ≤ format.round nearby := by
  obtain ⟨multiple, isMultiple⟩ := holds.onGrid
  have half := pow_le_half large
  have positive : 0 < nearby := by linarith [OnGrid.pow_pos (format.exponent magnitude - 1)]
  have lower := (exponent_half large).trans (format.exponent_mono (by linarith [(OnGrid.pow_pos _).trans large])
    (show magnitude / 2 ≤ nearby by linarith))
  have upper := format.exponent_mono positive below
  have power := two_mul_pow (format.exponent magnitude)
  have powerPositive := OnGrid.pow_pos (format.exponent nearby)
  generalize format.exponent magnitude = exponent at *
  rw [round]
  obtain isExponent | isExponent : format.exponent nearby = exponent ∨ format.exponent nearby = exponent - 1 := by omega
  all_goals rw [isExponent] at powerPositive ⊢
  · have scaled : (multiple : ℚ) - 1 / 2 < nearby / 2 ^ exponent := by
      rw [lt_div_iff₀ powerPositive]
      linarith
    have rounded : multiple - 1 < nearestEven (nearby / 2 ^ exponent) := lt_nearestEven (by push_cast; linarith)
    have bound : (multiple : ℚ) ≤ nearestEven (nearby / 2 ^ exponent) := by exact_mod_cast Int.le_of_sub_one_lt rounded
    exact isMultiple.le.trans (mul_le_mul_of_nonneg_right bound powerPositive.le)
  · have scaled : ((2 * multiple : ℤ) : ℚ) - 1 / 2 ≤ nearby / 2 ^ (exponent - 1) := by
      rw [le_div_iff₀ powerPositive]
      push_cast
      nlinarith
    have bound : ((2 * multiple : ℤ) : ℚ) ≤ nearestEven (nearby / 2 ^ (exponent - 1)) := by
      exact_mod_cast le_nearestEven_of_even (dvd_mul_right 2 multiple) scaled
    refine le_trans ?_ (mul_le_mul_of_nonneg_right bound powerPositive.le)
    rw [isMultiple, ← power]
    push_cast
    linarith

/-! ## Shares

A difference is compared with a share of its greater number, both rounded.
-/

variable {share current lesser greater : ℚ}

/-- Below one half there is room for a last digit. -/
theorem Holds.add_pow_le_half (holds : format.Holds share) (small : share < 1 / 2) :
    share + 2 ^ (-(format.digits : ℤ) - 1) ≤ 1 / 2 := by
  obtain ⟨significand, exponent, short, isExponent, rfl⟩ := holds
  have halfPow : (2 : ℚ) ^ (-1 : ℤ) = 1 / 2 := by norm_num
  by_cases coarse : -(format.digits : ℤ) ≤ exponent
  · have someDigits := format.someDigits
    have onGrid : OnGrid (-(format.digits : ℤ)) (significand * 2 ^ exponent : ℚ) := OnGrid.of_le ⟨significand, by simp⟩ coarse
    have halfOnGrid : OnGrid (-(format.digits : ℤ)) (1 / 2) := halfPow ▸ (OnGrid.pow (-1)).of_le (by omega)
    have step := onGrid.add_pow_le halfOnGrid small
    have finer : (2 : ℚ) ^ (-(format.digits : ℤ) - 1) ≤ 2 ^ (-(format.digits : ℤ)) :=
      zpow_le_zpow_right₀ (by norm_num) (by omega)
    linarith
  · have power : (2 : ℚ) ^ exponent ≤ 2 ^ (-(format.digits : ℤ) - 1) := zpow_le_zpow_right₀ (by norm_num) (by omega)
    have positive := OnGrid.pow_pos (-(format.digits : ℤ) - 1)
    have significandShort : (significand : ℚ) + 1 ≤ 2 ^ format.digits := by exact_mod_cast short
    have full : (2 : ℚ) ^ format.digits * 2 ^ (-(format.digits : ℤ) - 1) = 1 / 2 := by
      rw [← zpow_natCast, ← zpow_add₀ (by norm_num), ← halfPow]
      congr 1
      omega
    calc (significand : ℚ) * 2 ^ exponent + 2 ^ (-(format.digits : ℤ) - 1)
        ≤ significand * 2 ^ (-(format.digits : ℤ) - 1) + 2 ^ (-(format.digits : ℤ) - 1) := by gcongr
      _ = (significand + 1) * 2 ^ (-(format.digits : ℤ) - 1) := by ring
      _ ≤ 2 ^ format.digits * 2 ^ (-(format.digits : ℤ) - 1) := by gcongr
      _ = 1 / 2 := full

/-- A share of less than one half is rounded to less than the half. -/
theorem round_share_lt (shareHolds : format.Holds share) (small : share < 1 / 2) (holds : format.Holds magnitude)
    (large : format.finestRange < magnitude) : format.round (share * magnitude) < magnitude / 2 := by
  have isLog := log_of_finestRange_lt large
  have notFinest := exponent_of_finestRange_lt large
  have positive : 0 < magnitude := (OnGrid.pow_pos _).trans large
  have nonnegative : 0 ≤ share * magnitude := mul_nonneg shareHolds.nonneg positive.le
  have room := mul_le_mul_of_nonneg_right (shareHolds.add_pow_le_half small) positive.le
  have powLe := pow_log_le positive
  cases powLe.eq_or_lt with
  | inl isPow =>
    -- Below the half of a power of two the numbers are finer.
    generalize Int.log 2 magnitude = log at isLog isPow
    rw [finestRange, ← isPow] at large
    have exponents := (zpow_lt_zpow_iff_right₀ (by norm_num)).mp large
    have halfPow := two_mul_pow log
    have finerPow : (2 : ℚ) ^ (-(format.digits : ℤ) - 1) * 2 ^ log = 2 ^ (log - 1 - format.digits) := by
      rw [← zpow_add₀ (by norm_num)]
      congr 1
      omega
    have finerLe : (2 : ℚ) ^ (log - 1 - format.digits) ≤ 2 ^ (log - 1) := zpow_le_zpow_right₀ (by norm_num) (by omega)
    have finer := OnGrid.pow_pos (log - 1 - format.digits)
    have onGrid : OnGrid (log - 1 - format.digits) (2 ^ (log - 1) - 2 ^ (log - 1 - format.digits)) :=
      ((OnGrid.pow _).of_le (by omega)).sub (.pow _)
    have power : (format.digits : ℤ) + (log - 1 - format.digits) = log - 1 := by omega
    have holdsBelow : format.Holds (2 ^ (log - 1) - 2 ^ (log - 1 - format.digits)) :=
      holds_of_onGrid onGrid (by linarith) (by omega) (by rw [power]; linarith)
    rw [← isPow, add_mul, finerPow] at room
    have rounded := holdsBelow.round_le nonnegative (by rw [← isPow]; linarith)
    linarith
  | inr above =>
    have halfHolds := holds.half large
    generalize isExponent : format.exponent magnitude = exponent at *
    have digitsPow : (2 : ℚ) ^ (-(format.digits : ℤ) - 1) * 2 ^ Int.log 2 magnitude = 2 ^ (exponent - 2) := by
      rw [← zpow_add₀ (by norm_num), isLog]
      congr 1
      omega
    have step := OnGrid.pow_pos (exponent - 1)
    have stepLe := isExponent ▸ pow_le_half large
    have halfStep : format.Holds (magnitude / 2 - 2 ^ (exponent - 1)) := by
      have short := format.half_lt_pow magnitude
      have onGrid := holds.half_onGrid
      rw [isExponent] at short onGrid
      exact holds_of_onGrid (onGrid.sub (.pow _)) (by linarith) (by omega) (by linarith)
    refine round_lt halfStep halfHolds (by linarith) nonnegative ?_
    have scaled := mul_lt_mul_of_pos_left above (OnGrid.pow_pos (-(format.digits : ℤ) - 1))
    have quarter := two_mul_pow (exponent - 1)
    rw [digitsPow] at scaled
    rw [show exponent - 1 - 1 = exponent - 2 by ring] at quarter
    linarith

/-- The half of a number is rounded to itself, or the number is in the range where differences are exact. -/
theorem half_le_round_sub (holds : format.Holds greater) (large : format.finestRange < greater)
    (far : 2 * current ≤ greater) : greater / 2 ≤ format.round (greater - current) :=
  (holds.half large).le_round (by linarith)

/-- A difference of more than the half, by at least the last digit of the half, is rounded to more than the half. -/
theorem half_lt_round_sub (holds : format.Holds greater) (large : format.finestRange < greater)
    (far : 2 * current + 2 ^ (format.exponent greater - 1) < greater) :
    greater / 2 < format.round (greater - current) := by
  have notFinest := exponent_of_finestRange_lt large
  have step := OnGrid.pow_pos (format.exponent greater - 1)
  have halfStep : format.Holds (greater / 2 + 2 ^ (format.exponent greater - 1)) := by
    have power : OnGrid (format.exponent greater - 1) (2 ^ ((format.digits : ℤ) + (format.exponent greater - 1))) :=
      (OnGrid.pow _).of_le (by omega)
    have short := holds.half_onGrid.add_pow_le power (format.half_lt_pow greater)
    exact holds_of_onGrid (holds.half_onGrid.add (.pow _)) (by linarith [holds.nonneg]) (by omega) short
  exact lt_round (holds.half large) halfStep (by linarith) (by linarith)

/-- A difference that exceeds the share of its greater number still does so when the greater number grows. -/
theorem share_lt_sub_mono (shareHolds : format.Holds share) (small : share ≤ 1 / 2) (currentHolds : format.Holds current)
    (lesserHolds : format.Holds lesser) (greaterHolds : format.Holds greater) (above : current ≤ lesser)
    (ordered : lesser ≤ greater) (exceeds : format.round (share * lesser) < format.round (lesser - current)) :
    format.round (share * greater) < format.round (greater - current) := by
  have shareNonneg := shareHolds.nonneg
  have lesserNonneg := lesserHolds.nonneg
  cases ordered.eq_or_lt with
  | inl same => exact same ▸ exceeds
  | inr less =>
    by_cases isExact : greater ≤ 2 * current ∨ greater ≤ format.finestRange
    · have lesserExact := lesserHolds.sub currentHolds above (isExact.imp ordered.trans ordered.trans)
      have greaterExact := greaterHolds.sub currentHolds (above.trans ordered) isExact
      rw [lesserExact.round_eq] at exceeds
      rw [greaterExact.round_eq]
      have below : share * lesser < lesser - current := by
        by_contra notBelow
        exact absurd exceeds (lesserExact.le_round (not_lt.mp notBelow)).not_gt
      have grown := mul_le_mul_of_nonneg_right small (sub_nonneg.mpr ordered)
      exact round_lt lesserExact greaterExact (by linarith) (mul_nonneg shareNonneg (lesserNonneg.trans ordered))
        (by linarith)
    · obtain ⟨far, large⟩ := not_or.mp isExact
      rw [not_le] at far large
      have halfLe := half_le_round_sub greaterHolds large far.le
      cases small.lt_or_eq with
      | inl less => exact (round_share_lt shareHolds less greaterHolds large).trans_le halfLe
      | inr isHalf =>
        rw [isHalf, one_div_mul_eq_div] at exceeds ⊢
        rw [(greaterHolds.half large).round_eq]
        -- The lesser number is more than twice the current one, and so the greater is by a digit.
        have lesserFar : 2 * current < lesser := by
          by_contra near
          exact absurd exceeds (format.round_mono (by linarith) (by linarith)).not_gt
        have digit := lesserHolds.add_pow_le greaterHolds large less
        exact half_lt_round_sub greaterHolds large (by linarith)

/-- If adding a rounded difference again gives more than the greater number, the difference exceeds every share. -/
theorem share_lt_sub_of_lt_rebuilt (shareHolds : format.Holds share) (small : share ≤ 1 / 2)
    (currentHolds : format.Holds current) (greaterHolds : format.Holds greater) (above : current ≤ greater)
    (higher : greater < format.round (current + format.round (greater - current))) :
    format.round (share * greater) < format.round (greater - current) := by
  have currentNonneg := currentHolds.nonneg
  have greaterNonneg := greaterHolds.nonneg
  have isInexact : ¬(greater ≤ 2 * current ∨ greater ≤ format.finestRange) := by
    intro isExact
    rw [(greaterHolds.sub currentHolds above isExact).round_eq, add_sub_cancel, greaterHolds.round_eq] at higher
    exact lt_irrefl _ higher
  obtain ⟨far, large⟩ := not_or.mp isInexact
  rw [not_le] at far large
  have halfLe := half_le_round_sub greaterHolds large far.le
  have differenceHolds : format.Holds (format.round (greater - current)) := holds_round (by linarith)
  have rebuiltLe : format.round (current + format.round (greater - current)) ≤ 2 * format.round (greater - current) :=
    differenceHolds.double.round_le (by linarith) (by linarith)
  have shareLe : format.round (share * greater) ≤ greater / 2 :=
    (greaterHolds.half large).round_le (mul_nonneg shareHolds.nonneg greaterNonneg) (by nlinarith)
  linarith

/-- Adding a rounded difference again may not give the greater number back, which makes no difference to the
comparison. -/
theorem share_rebuilt_lt_sub_iff (shareHolds : format.Holds share) (small : share ≤ 1 / 2)
    (currentHolds : format.Holds current) (greaterHolds : format.Holds greater) (above : current ≤ greater) :
    format.round (share * format.round (current + format.round (greater - current))) < format.round (greater - current) ↔
      format.round (share * greater) < format.round (greater - current) := by
  have shareNonneg := shareHolds.nonneg
  have currentNonneg := currentHolds.nonneg
  by_cases isExact : greater ≤ 2 * current ∨ greater ≤ format.finestRange
  · rw [(greaterHolds.sub currentHolds above isExact).round_eq, add_sub_cancel, greaterHolds.round_eq]
  · obtain ⟨far, large⟩ := not_or.mp isExact
    rw [not_le] at far large
    have halfLe := half_le_round_sub greaterHolds large far.le
    have halfHolds := greaterHolds.half large
    have differenceHolds : format.Holds (format.round (greater - current)) := holds_round (by linarith)
    generalize isDifference : format.round (greater - current) = difference at *
    have doubleHolds : format.Holds (2 * difference) := differenceHolds.double
    have rebuiltLe : format.round (current + difference) ≤ 2 * difference :=
      doubleHolds.round_le (by linarith) (by linarith)
    cases small.lt_or_eq with
    | inl less =>
      have direct := (round_share_lt shareHolds less greaterHolds large).trans_le halfLe
      have rebuilt : format.round (share * (2 * difference)) < 2 * difference / 2 :=
        round_share_lt shareHolds less doubleHolds (by linarith)
      have bound := format.round_mono (mul_nonneg shareNonneg (format.round_nonneg (by linarith)))
        (mul_le_mul_of_nonneg_left rebuiltLe shareNonneg)
      exact iff_of_true (by linarith) direct
    | inr isHalf =>
      rw [isHalf, one_div_mul_eq_div, one_div_mul_eq_div, halfHolds.round_eq]
      cases halfLe.lt_or_eq with
      | inl less =>
        refine iff_of_true ?_ less
        have rebuiltLt : format.round (current + difference) < 2 * difference :=
          round_lt greaterHolds doubleHolds (by linarith) (by linarith) (by linarith)
        generalize isRebuilt : format.round (current + difference) = rebuilt at *
        have rebuiltHolds : format.Holds rebuilt := isRebuilt ▸ holds_round (by linarith)
        by_cases higher : greater < rebuilt
        · rw [(rebuiltHolds.half (large.trans higher)).round_eq]
          linarith
        · exact (halfHolds.round_le (by linarith [rebuiltHolds.nonneg]) (by linarith)).trans_lt less
      | inr isHalfDifference =>
        refine iff_of_false ?_ isHalfDifference.not_lt
        rw [not_lt, ← isHalfDifference]
        refine halfHolds.le_round ?_
        have near : greater ≤ 2 * current + 2 ^ (format.exponent greater - 1) := by
          by_contra notNear
          have more := half_lt_round_sub greaterHolds large (not_le.mp notNear)
          rw [isDifference, ← isHalfDifference] at more
          exact lt_irrefl _ more
        have rebuilt := greaterHolds.le_round_of_near large (current + greater / 2) (by linarith) (by linarith)
        linarith

end FloatingFormat

end CutPlan.Lib
