import Mathlib.Data.List.Basic
import Mathlib.Tactic

/-! # Bit fields in words

A field is a run of bits that lies within one word.  Reading takes the bits of the field, writing
replaces them; fields without a common bit do not see each other's writes.
-/

namespace CutPlan.Lib

structure BitField (wordSize : ℕ) where
  shift : ℕ
  width : ℕ
  within : shift + width ≤ wordSize

namespace BitField

variable {wordSize : ℕ}

/-- The positions of a field. -/
def Covers (field : BitField wordSize) (position : ℕ) : Prop :=
  field.shift ≤ position ∧ position < field.shift + field.width

instance (field : BitField wordSize) (position : ℕ) : Decidable (field.Covers position) :=
  inferInstanceAs (Decidable (_ ∧ _))

def Disjoint (first second : BitField wordSize) : Prop :=
  ∀ position, first.Covers position → ¬ second.Covers position

/-- The values that a field can hold. -/
def Fits (field : BitField wordSize) (value : BitVec wordSize) : Prop :=
  value.toNat < 2 ^ field.width

theorem Fits.getLsbD_eq_false {field : BitField wordSize} {value : BitVec wordSize}
    (fits : field.Fits value) {position : ℕ} (above : field.width ≤ position) :
    value.getLsbD position = false := by
  rw [BitVec.getLsbD]
  exact Nat.testBit_lt_two_pow (fits.trans_le (Nat.pow_le_pow_right (by decide) above))

/-- A mask has a one exactly at the positions of the field. -/
def IsMask (field : BitField wordSize) (mask : BitVec wordSize) : Prop :=
  ∀ position, mask.getLsbD position = decide (field.Covers position)

theorem isMask_shifted (field : BitField wordSize) (smaller : field.width < wordSize) :
    field.IsMask (((BitVec.ofNat wordSize 1 <<< field.width) - BitVec.ofNat wordSize 1) <<< field.shift) := by
  intro position
  have within := field.within
  have ones : (BitVec.ofNat wordSize 1 <<< field.width) - BitVec.ofNat wordSize 1 =
      BitVec.ofNat wordSize (2 ^ field.width - 1) := by
    have power : 2 ^ field.width < 2 ^ wordSize := Nat.pow_lt_pow_right (by decide) smaller
    have positive : 0 < 2 ^ field.width := Nat.two_pow_pos _
    have one : 1 % 2 ^ wordSize = 1 := Nat.mod_eq_of_lt (by omega)
    apply BitVec.eq_of_toNat_eq
    rw [BitVec.toNat_sub, BitVec.toNat_shiftLeft, BitVec.toNat_ofNat, one, BitVec.toNat_ofNat,
      Nat.shiftLeft_eq, Nat.one_mul, Nat.mod_eq_of_lt power]
    have wraps : 2 ^ wordSize - 1 + 2 ^ field.width = 2 ^ field.width - 1 + 2 ^ wordSize := by omega
    rw [wraps, Nat.add_mod_right]
  rw [ones, BitVec.getLsbD_shiftLeft, BitVec.getLsbD_ofNat, Nat.testBit_two_pow_sub_one]
  by_cases covered : field.Covers position
  · obtain ⟨after, before⟩ := covered
    have inWord : position < wordSize := by omega
    have low : position - field.shift < field.width := by omega
    have inLow : position - field.shift < wordSize := by omega
    simp [Covers, inWord, low, inLow, after, before]
  · by_cases after : field.shift ≤ position
    · have high : ¬ position - field.shift < field.width := by unfold Covers at covered; omega
      simp [covered, high]
    · simp [covered, not_le.mp after]

theorem isMask_full (field : BitField wordSize) (full : field.width = wordSize) :
    field.IsMask (BitVec.allOnes wordSize) := by
  intro position
  have within := field.within
  rw [BitVec.getLsbD_allOnes]
  apply decide_eq_decide.mpr
  unfold Covers
  omega

def read (shift : ℕ) (mask word : BitVec wordSize) : BitVec wordSize :=
  (word &&& mask) >>> shift

def write (shift : ℕ) (mask word value : BitVec wordSize) : BitVec wordSize :=
  (word &&& ~~~mask) ||| (value <<< shift)

variable {field other : BitField wordSize} {mask otherMask : BitVec wordSize}

theorem getLsbD_write (isMask : field.IsMask mask) {value : BitVec wordSize}
    (fits : field.Fits value) (word : BitVec wordSize) (position : ℕ) :
    (write field.shift mask word value).getLsbD position =
      if field.Covers position then value.getLsbD (position - field.shift)
      else word.getLsbD position := by
  have within := field.within
  unfold write
  rw [BitVec.getLsbD_or, BitVec.getLsbD_and, BitVec.getLsbD_not, isMask position,
    BitVec.getLsbD_shiftLeft]
  by_cases covered : field.Covers position
  · have inWord : position < wordSize := by unfold Covers at covered; omega
    have after : ¬ position < field.shift := by unfold Covers at covered; omega
    simp [covered, inWord, after]
  · -- outside the field the shifted value has no ones
    have none : (decide (position < wordSize) && !decide (position < field.shift) &&
        value.getLsbD (position - field.shift)) = false := by
      by_cases before : position < field.shift
      · simp [before]
      · have above : field.width ≤ position - field.shift := by unfold Covers at covered; omega
        simp [fits.getLsbD_eq_false above]
    rw [none]
    by_cases inWord : position < wordSize
    · simp [covered, inWord]
    · simp [covered, inWord, BitVec.getLsbD_of_ge word position (not_lt.mp inWord)]

theorem read_write (isMask : field.IsMask mask) {value : BitVec wordSize}
    (fits : field.Fits value) (word : BitVec wordSize) :
    read field.shift mask (write field.shift mask word value) = value := by
  apply BitVec.eq_of_getLsbD_eq
  intro position bound
  rw [read, BitVec.getLsbD_ushiftRight, BitVec.getLsbD_and, getLsbD_write isMask fits, isMask]
  by_cases inField : position < field.width
  · have covered : field.Covers (field.shift + position) := by unfold Covers; omega
    simp [covered]
  · have outside : ¬ field.Covers (field.shift + position) := by unfold Covers; omega
    simp [outside, fits.getLsbD_eq_false (not_lt.mp inField)]

theorem read_write_of_disjoint (isMask : field.IsMask mask) (otherIsMask : other.IsMask otherMask)
    (disjoint : field.Disjoint other) {value : BitVec wordSize} (fits : field.Fits value)
    (word : BitVec wordSize) :
    read other.shift otherMask (write field.shift mask word value) =
      read other.shift otherMask word := by
  apply BitVec.eq_of_getLsbD_eq
  intro position bound
  simp only [read, BitVec.getLsbD_ushiftRight, BitVec.getLsbD_and, getLsbD_write isMask fits,
    otherIsMask (other.shift + position)]
  by_cases covered : other.Covers (other.shift + position)
  · have outside : ¬ field.Covers (other.shift + position) :=
      fun inField => disjoint _ inField covered
    simp [outside]
  · simp [covered]

theorem disjoint_iff (isMask : field.IsMask mask) (otherIsMask : other.IsMask otherMask) :
    field.Disjoint other ↔ mask &&& otherMask = 0 := by
  constructor
  · intro disjoint
    apply BitVec.eq_of_getLsbD_eq
    intro position bound
    rw [BitVec.getLsbD_and, isMask, otherIsMask]
    by_cases covered : field.Covers position
    · simp [disjoint position covered]
    · simp [covered]
  · intro none position inField inOther
    have bit := congrArg (fun word => word.getLsbD position) none
    simp [BitVec.getLsbD_and, isMask position, otherIsMask position, inField, inOther] at bit

/-- Words that agree outside some fields and give the same readings in them are equal. -/
theorem getLsbD_eq_of_read_eq (isMask : field.IsMask mask) {first second : BitVec wordSize}
    (same : read field.shift mask first = read field.shift mask second) {position : ℕ}
    (covered : field.Covers position) : first.getLsbD position = second.getLsbD position := by
  have bits := congrArg (fun word => word.getLsbD (position - field.shift)) same
  have there : field.shift + (position - field.shift) = position := by
    unfold Covers at covered
    omega
  simpa [read, BitVec.getLsbD_ushiftRight, BitVec.getLsbD_and, there, isMask position, covered]
    using bits

end BitField

end CutPlan.Lib
