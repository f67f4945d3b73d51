import CutPlan.Search.RequestTriggers
import CutPlan.Lib.ExtendedNumber
import CutPlan.Lib.FloatingFormat

/-! # The arithmetic of doubles

The operations are exact ones that are rounded to doubles, and to infinity from the first power of two on that is
greater than all doubles.
-/

namespace CutPlan.Search

open CutPlan.Lib

namespace DoubleArithmetic

/-- The double nearest to a number. -/
def ofRational (value : ℚ) : ExtendedNumber :=
  let magnitude := FloatingFormat.double.round |value|
  if 2 ^ (1024 : ℤ) ≤ magnitude then if value < 0 then .negInfinity else .posInfinity
  else .finite (if value < 0 then -magnitude else magnitude)

def round : ExtendedNumber → ExtendedNumber
  | .finite value => ofRational value
  | other => other

def negate : ExtendedNumber → ExtendedNumber
  | .notANumber => .notANumber
  | .negInfinity => .posInfinity
  | .finite value => .finite (-value)
  | .posInfinity => .negInfinity

def add (first second : ExtendedNumber) : ExtendedNumber := round (first.add second)

def sub (first second : ExtendedNumber) : ExtendedNumber := round (first.add (negate second))

def mul : ExtendedNumber → ExtendedNumber → ExtendedNumber
  | .notANumber, _ | _, .notANumber => .notANumber
  | .finite first, .finite second => ofRational (first * second)
  | .finite factor, infinite | infinite, .finite factor => if factor = 0 then .notANumber else infinite.scale factor
  | .posInfinity, infinite => infinite
  | .negInfinity, infinite => negate infinite

def div : ExtendedNumber → ExtendedNumber → ExtendedNumber
  | .notANumber, _ | _, .notANumber => .notANumber
  | .finite dividend, .finite divisor => round (.divide dividend divisor)
  | .finite _, _ => .finite 0
  | infinite, .finite divisor => if divisor < 0 then negate infinite else infinite
  | _, _ => .notANumber

def fabs : ExtendedNumber → ExtendedNumber
  | .notANumber => .notANumber
  | .finite value => .finite |value|
  | _ => .posInfinity

/-- Halves are rounded away from zero. -/
def llround : ExtendedNumber → ℤ
  | .finite value => if value < 0 then -(-value + 1 / 2).floor else (value + 1 / 2).floor
  | _ => 0

def isFinite : ExtendedNumber → Bool
  | .finite _ => true
  | _ => false

end DoubleArithmetic

def doubleArithmetic : FloatArithmetic ExtendedNumber where
  isFinite := DoubleArithmetic.isFinite
  less := ExtendedNumber.lt
  add := DoubleArithmetic.add
  sub := DoubleArithmetic.sub
  mul := DoubleArithmetic.mul
  div := DoubleArithmetic.div
  fabs := DoubleArithmetic.fabs
  ofNat count := DoubleArithmetic.ofRational count
  llround := DoubleArithmetic.llround
  infinity := .posInfinity
  thousandth := DoubleArithmetic.ofRational (1 / 1000)

/-- Settings for examples. -/
def exampleConfig : TriggerConfig ExtendedNumber where
  enabled := true
  requestInitial := false
  enableAncestorStagnation := false
  enableFrontierPlateau := true
  enableGlobalStall := false
  analysisInterval := 1
  analysisInterval_pos := le_rfl
  activityWindows := 2
  growthConfirmWindows := 2
  layerResetWindows := 4
  layerResetWindows_pos := by decide
  layerMinRecentExpanded := 1
  layerMinRecentNetGrowth := 1
  layerMinSinceRequestExpanded := 1
  layerMinSinceRequestNetGrowth := 1
  stallExpansions := 5
  ancestorCheckInterval := 5
  minRequestGapExpansions := 1
  perLayerRequestGapExpansions := 1
  gaps := le_rfl
  candidateLayers := 1
  requestsPerSlot := 1
  maxPending := 4
  maxRequests := 4
  hAbsEpsilon := .finite 1
  hRelativeEpsilon := .finite (1 / 128)
  plateauGrowthRatio := .finite 1
  expectsResponse := true

namespace DoubleArithmetic

/-- The h values and thresholds: no less than zero, and infinite or doubles. -/
def IsNonnegative (number : ExtendedNumber) : Prop :=
  number = .posInfinity ∨ ∃ value, number = .finite value ∧ FloatingFormat.double.Holds value ∧ value < 2 ^ (1024 : ℤ)

variable {first second : ℚ}

theorem ofRational_of_nonneg {value : ℚ} (nonnegative : 0 ≤ value) :
    ofRational value =
      if 2 ^ (1024 : ℤ) ≤ FloatingFormat.double.round value then .posInfinity
      else .finite (FloatingFormat.double.round value) := by
  simp only [ofRational, abs_of_nonneg nonnegative, nonnegative.not_gt, if_false]

/-- A difference of doubles, rounded. -/
def difference (first second : ℚ) : ℚ :=
  if second ≤ first then FloatingFormat.double.round (first - second)
  else -FloatingFormat.double.round (second - first)

theorem ofRational_small {value : ℚ} {bound : ℚ} (holds : FloatingFormat.double.Holds bound) (small : bound < 2 ^ (1024 : ℤ))
    (below : |value| ≤ bound) :
    ofRational value = .finite (if value < 0 then -FloatingFormat.double.round |value| else FloatingFormat.double.round |value|) := by
  have rounded := holds.round_le (abs_nonneg value) below
  simp only [ofRational, (rounded.trans_lt small).not_ge, if_false]

theorem sub_finite (firstHolds : FloatingFormat.double.Holds first) (secondHolds : FloatingFormat.double.Holds second)
    (firstSmall : first < 2 ^ (1024 : ℤ)) (secondSmall : second < 2 ^ (1024 : ℤ)) :
    sub (.finite first) (.finite second) = .finite (difference first second) := by
  have firstNonneg := firstHolds.nonneg
  have secondNonneg := secondHolds.nonneg
  simp only [sub, negate, ExtendedNumber.add, round, ← sub_eq_add_neg, difference]
  by_cases ordered : second ≤ first
  · rw [ofRational_small firstHolds firstSmall (abs_sub_le_of_nonneg_of_le firstNonneg le_rfl secondNonneg ordered),
      if_neg (by linarith), abs_of_nonneg (by linarith), if_pos ordered]
  · rw [not_le] at ordered
    rw [ofRational_small secondHolds secondSmall
        (abs_sub_le_of_nonneg_of_le firstNonneg ordered.le secondNonneg le_rfl),
      if_pos (by linarith), abs_of_neg (by linarith), neg_sub, if_neg ordered.not_ge]

/-- Rounded differences grow with the number that is subtracted from. -/
theorem difference_mono (second : ℚ) : Monotone fun first => difference first second := by
  intro lesser greater ordered
  simp only [difference]
  split_ifs with above above'
  · exact FloatingFormat.double.round_mono (by linarith) (by linarith)
  · linarith
  · have nonpositive := FloatingFormat.double.round_nonneg (show 0 ≤ second - lesser by linarith)
    have nonnegative := FloatingFormat.double.round_nonneg (show 0 ≤ greater - second by linarith)
    linarith
  · exact neg_le_neg (FloatingFormat.double.round_mono (by linarith) (by linarith))

@[simp] theorem difference_self (value : ℚ) : difference value value = 0 := by simp [difference]

end DoubleArithmetic

end CutPlan.Search
