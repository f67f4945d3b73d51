import CutPlan.Preprocess.Operator
import Mathlib.Tactic.Linarith
import Mathlib.Tactic.NormNum

/-! # The numeric initial state on its way to the search

The preprocessor reads the values of all numeric variables, and writes those of the necessary ones for the
search in the order of the causal graph.
-/

namespace CutPlan.Preprocess

open CutPlan.Lib

/-! ## Printed numbers -/

/-- A number with at most six significant digits. -/
def SixDigits (value : ℚ) : Prop := ∃ significand exponent : ℤ, |significand| < 10 ^ 6 ∧ value = significand * 10 ^ exponent

@[simp] theorem roundHalfEven_intCast (value : ℤ) : roundHalfEven (value : ℚ) = value := by
  simp [roundHalfEven]

theorem ten_zpow_pos (exponent : ℤ) : (0 : ℚ) < 10 ^ exponent := zpow_pos (by norm_num) exponent

/-- The first significant digit is brought to the place before the last six. -/
theorem abs_scaled_lt (value : ℚ) : |value * 10 ^ (5 - Int.log 10 |value|)| < 10 ^ (6 : ℤ) := by
  have below : |value| < 10 ^ (Int.log 10 |value| + 1) := Int.lt_zpow_succ_log_self (by norm_num) |value|
  have scalePositive := ten_zpow_pos (5 - Int.log 10 |value|)
  calc |value * 10 ^ (5 - Int.log 10 |value|)| = |value| * 10 ^ (5 - Int.log 10 |value|) := by
        rw [abs_mul, abs_of_pos scalePositive]
    _ < 10 ^ (Int.log 10 |value| + 1) * 10 ^ (5 - Int.log 10 |value|) :=
        mul_lt_mul_of_pos_right below scalePositive
    _ = 10 ^ (6 : ℤ) := by
        rw [← zpow_add₀ (by norm_num)]
        congr 1
        omega

theorem sixDigits_of_printed {value : ℚ} (printed : printedDouble value = value) : SixDigits value := by
  rw [printedDouble] at printed
  split at printed
  case isTrue isZero => exact ⟨0, 0, by norm_num, by simp [isZero]⟩
  case isFalse =>
    have scaleNonzero : (10 : ℚ) ^ (5 - Int.log 10 |value|) ≠ 0 := (ten_zpow_pos _).ne'
    have scaled : (roundHalfEven (value * 10 ^ (5 - Int.log 10 |value|)) : ℚ) =
        value * 10 ^ (5 - Int.log 10 |value|) := (div_eq_iff scaleNonzero).mp printed
    refine ⟨roundHalfEven (value * 10 ^ (5 - Int.log 10 |value|)), Int.log 10 |value| - 5, ?_, ?_⟩
    · have small := abs_scaled_lt value
      rw [← scaled] at small
      exact_mod_cast small
    · rw [scaled, mul_assoc, ← zpow_add₀ (by norm_num)]
      simp

/-- The significand becomes a whole number, which the rounding keeps. -/
theorem printed_of_sixDigits {value : ℚ} (sixDigits : SixDigits value) : printedDouble value = value := by
  obtain ⟨significand, exponent, small, rfl⟩ := sixDigits
  rw [printedDouble]
  split
  case isTrue isZero => exact isZero.symm
  case isFalse nonzero =>
    generalize isValue : (significand * 10 ^ exponent : ℚ) = value at nonzero ⊢
    have absPositive : 0 < |value| := abs_pos.mpr nonzero
    have below : |value| < 10 ^ (6 + exponent) := by
      have bound : |(significand : ℚ)| < 10 ^ (6 : ℤ) := by exact_mod_cast small
      rw [← isValue, abs_mul, abs_of_pos (ten_zpow_pos exponent),
        zpow_add₀ (by norm_num : (10 : ℚ) ≠ 0)]
      exact mul_lt_mul_of_pos_right bound (ten_zpow_pos exponent)
    have log : Int.log 10 |value| < 6 + exponent := by
      apply (Int.lt_zpow_iff_log_lt (by norm_num) absPositive).mp
      exact_mod_cast below
    obtain ⟨shift, isShift⟩ := Int.eq_ofNat_of_zero_le (show 0 ≤ exponent + (5 - Int.log 10 |value|) by omega)
    have whole : value * 10 ^ (5 - Int.log 10 |value|) = ((significand * 10 ^ shift : ℤ) : ℚ) := by
      nth_rewrite 1 [← isValue]
      rw [mul_assoc, ← zpow_add₀ (by norm_num), isShift]
      push_cast
      rw [zpow_natCast]
    simp only
    rw [whole, roundHalfEven_intCast, ← whole]
    exact mul_div_cancel_right₀ value (ten_zpow_pos _).ne'

theorem printedDouble_eq_iff (value : ℚ) : printedDouble value = value ↔ SixDigits value :=
  ⟨sixDigits_of_printed, printed_of_sixDigits⟩

/-! ## The text of a numeric state -/

/-- The numeric state in the translator's output. -/
def writeNumericState (values : List ℚ) : List Token :=
  [.word "begin_numeric_state"] ++ values.map .float ++ [.word "end_numeric_state"]

/-- The last part of the constructor of `State`, and the same part of `read_everything`. -/
def readNumericState (count : ℕ) : Reader (List ℚ) := do
  Reader.magic "begin_numeric_state"
  let values ← Reader.float.many count
  Reader.magic "end_numeric_state"
  return values

/-- The numeric state in the output of the preprocessor.  The order has the necessary variables. -/
def generateNumericState (numericVars : List ℕ) (values : ℕ → ℚ) : List Token :=
  [.word "begin_numeric_state"] ++ (numericVars.map fun var => .float (printedDouble (values var))) ++
    [.word "end_numeric_state"]

/-- What the search reads. -/
def searchNumericState (numericVars : List ℕ) (text : List Token) (count : ℕ) : Option (List ℚ) := do
  let (values, _) ← (readNumericState count).run text
  let (found, _) ← (readNumericState numericVars.length).run
    (generateNumericState numericVars fun var => values.getD var 0)
  return found

theorem reads_numericState (values : List ℚ) :
    Reads (readNumericState values.length) (writeNumericState values) values := by
  have numbers : Reads (Reader.float.many values.length) (values.map .float) values := by
    have each := Reads.many (fun value (_ : value ∈ values) => Reads.float value)
    rwa [← List.map_eq_flatMap, List.map_id'] at each
  rw [writeNumericState, List.append_assoc]
  apply Reads.bind (Reads.magic "begin_numeric_state")
  apply Reads.bind numbers
  exact (Reads.magic "end_numeric_state").map fun _ => values

/-- The preprocessor writes a numeric state of rounded numbers. -/
theorem generateNumericState_eq (numericVars : List ℕ) (values : ℕ → ℚ) :
    generateNumericState numericVars values =
      writeNumericState (numericVars.map fun var => printedDouble (values var)) := by
  simp [generateNumericState, writeNumericState]

theorem searchNumericState_eq (numericVars : List ℕ) (values : List ℚ) :
    searchNumericState numericVars (writeNumericState values) values.length =
      some (numericVars.map fun var => printedDouble (values.getD var 0)) := by
  have written := reads_numericState (numericVars.map fun var => printedDouble (values.getD var 0))
  rw [List.length_map] at written
  rw [searchNumericState, (reads_numericState values).run_eq]
  simp only [Option.bind_eq_bind, Option.bind_some, generateNumericState_eq, written.run_eq]
  rfl

/-- The search reads the value of a variable that the translator wrote exactly if six digits are enough. -/
theorem numericState_survives_iff (numericVars : List ℕ) (values : List ℚ) :
    ∃ found, searchNumericState numericVars (writeNumericState values) values.length = some found ∧
      found.length = numericVars.length ∧
      ∀ index : Fin numericVars.length,
        found[index]? = some (values.getD numericVars[index] 0) ↔ SixDigits (values.getD numericVars[index] 0) := by
  refine ⟨_, searchNumericState_eq numericVars values, by simp, ?_⟩
  intro index
  rw [← printedDouble_eq_iff]
  simp

/-- A budget with seven digits. -/
theorem sevenDigits_lost :
    ¬ ∀ (numericVars : List ℕ) (values : List ℚ),
      searchNumericState numericVars (writeNumericState values) values.length =
        some (numericVars.map fun var => values.getD var 0) := by
  intro survives
  have survivesHere := survives [0] [1234567]
  rw [searchNumericState_eq] at survivesHere
  revert survivesHere
  decide +kernel

end CutPlan.Preprocess
