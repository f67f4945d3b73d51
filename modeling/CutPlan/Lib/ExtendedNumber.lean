import CutPlan.Lib.OneSidedBounds
import Mathlib.Algebra.Order.Field.Rat

/-! # Numbers with infinities

Exact rationals together with the infinities and the undefined value of floating-point arithmetic, which
arise from divisions by zero.  There is one zero, and dividing by it treats it as positive.
-/

namespace CutPlan.Lib

inductive ExtendedNumber where
  | notANumber
  | negInfinity
  | finite (value : ℚ)
  | posInfinity
  deriving DecidableEq, Repr

namespace ExtendedNumber

/-- The undefined value compares with nothing. -/
def lt : ExtendedNumber → ExtendedNumber → Bool
  | notANumber, _ | _, notANumber => false
  | negInfinity, negInfinity => false
  | negInfinity, _ => true
  | _, negInfinity => false
  | finite first, finite second => first < second
  | finite _, posInfinity => true
  | posInfinity, _ => false

def max (first second : ExtendedNumber) : ExtendedNumber :=
  if first.lt second then second else first

def min (first second : ExtendedNumber) : ExtendedNumber :=
  if second.lt first then second else first

def add : ExtendedNumber → ExtendedNumber → ExtendedNumber
  | notANumber, _ | _, notANumber => notANumber
  | finite first, finite second => finite (first + second)
  | finite _, infinite => infinite
  | infinite, finite _ => infinite
  | posInfinity, posInfinity => posInfinity
  | negInfinity, negInfinity => negInfinity
  | posInfinity, negInfinity | negInfinity, posInfinity => notANumber

/-- The product with a number that is not zero. -/
def scale (factor : ℚ) : ExtendedNumber → ExtendedNumber
  | notANumber => notANumber
  | finite value => finite (factor * value)
  | posInfinity => if 0 < factor then posInfinity else negInfinity
  | negInfinity => if 0 < factor then negInfinity else posInfinity

def divide (dividend divisor : ℚ) : ExtendedNumber :=
  if divisor = 0 then
    if 0 < dividend then posInfinity else if dividend < 0 then negInfinity else notANumber
  else finite (dividend / divisor)

/-- The number is a bound of the value on the side. -/
def Bounds (side : Side) (bound : ExtendedNumber) (value : ℚ) : Prop :=
  match bound with
  | finite limit => side.Bounds limit value
  | posInfinity => side = .upper
  | negInfinity => side = .lower
  | notANumber => False

/-- The larger of two upper bounds, or the smaller of two lower bounds. -/
def widen (side : Side) (first second : ExtendedNumber) : ExtendedNumber :=
  match side with
  | .upper => first.max second
  | .lower => first.min second

@[simp] theorem max_finite (first second : ℚ) :
    (finite first).max (finite second) = finite (Max.max first second) := by
  simp only [max, lt, decide_eq_true_eq]
  split
  · rename_i smaller
    rw [max_eq_right smaller.le]
  · rename_i notSmaller
    rw [max_eq_left (not_lt.mp notSmaller)]

@[simp] theorem min_finite (first second : ℚ) :
    (finite first).min (finite second) = finite (Min.min first second) := by
  simp only [min, lt, decide_eq_true_eq]
  split
  · rename_i smaller
    rw [min_eq_right smaller.le]
  · rename_i notSmaller
    rw [min_eq_left (not_lt.mp notSmaller)]

@[simp] theorem widen_finite (side : Side) (first second : ℚ) :
    widen side (finite first) (finite second) = finite (side.widen first second) := by
  cases side with
  | upper => exact max_finite first second
  | lower => exact min_finite first second

@[simp] theorem add_finite (first second : ℚ) :
    (finite first).add (finite second) = finite (first + second) := rfl

theorem divide_of_ne {dividend divisor : ℚ} (nonzero : divisor ≠ 0) :
    divide dividend divisor = finite (dividend / divisor) :=
  if_neg nonzero

end ExtendedNumber

end CutPlan.Lib
