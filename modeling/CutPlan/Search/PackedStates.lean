import CutPlan.Search.IntPacker

/-! # Packed states

A packed state is a buffer of bins that starts with zeros and is written through the packer, so bits
that belong to no variable stay zero.  Two such buffers are equal if their variables have the same
values.
-/

namespace CutPlan.Search

open CutPlan.Lib (BitField)

/-- A value for a variable. -/
abbrev Write := ℕ × ContainerInt

/-- Writes in order on values that are not packed. -/
def updateAll (values : ℕ → ContainerInt) (writes : List Write) : ℕ → ContainerInt :=
  writes.foldl (fun values write => Function.update values write.1 write.2) values

def Write.InRanges (ranges : List ContainerInt) (write : Write) : Prop :=
  ∃ range, ranges[write.1]? = some range ∧ IntPacker.InRange range write.2

theorem updateAll_congr {bound : ℕ} {first second : ℕ → ContainerInt}
    (same : ∀ var < bound, first var = second var) (writes : List Write) :
    ∀ var < bound, updateAll first writes var = updateAll second writes var := by
  induction writes generalizing first second with
  | nil => exact same
  | cons write writes inductionHypothesis =>
    apply inductionHypothesis
    intro var inBound
    by_cases written : var = write.1
    · simp [written]
    · simp [written, same var inBound]

theorem updateAll_of_not_written {values : ℕ → ContainerInt} {writes : List Write} {var : ℕ}
    (untouched : ∀ write ∈ writes, write.1 ≠ var) : updateAll values writes var = values var := by
  induction writes generalizing values with
  | nil => rfl
  | cons write writes inductionHypothesis =>
    obtain ⟨other, rest⟩ := List.forall_mem_cons.mp untouched
    rw [updateAll, List.foldl_cons, ← updateAll, inductionHypothesis rest,
      Function.update_of_ne (Ne.symm other)]

namespace IntPacker

variable (packer : IntPacker)

/-- A buffer of zeros. -/
def zeroBuffer : List Bin := List.replicate packer.numBins 0

def writeAll (buffer : List Bin) (writes : List Write) : List Bin :=
  writes.foldl (fun buffer write => packer.set buffer write.1 write.2) buffer

/-- A buffer with the packer's number of bins and zeros outside the fields. -/
structure Clean (buffer : List Bin) : Prop where
  size_eq : buffer.length = packer.numBins
  padding : ∀ bin position, (∀ (var : ℕ) (info : VariableInfo),
    packer.varInfos[var]? = some (some info) → info.binIndex = bin →
      info.readMask.getLsbD position = false) → (buffer.getD bin 0).getLsbD position = false

variable {packer} {ranges : List ContainerInt} {buffer : List Bin}

theorem clean_zeroBuffer : packer.Clean packer.zeroBuffer where
  size_eq := by simp [zeroBuffer]
  padding := by
    intro bin position _
    have zero : packer.zeroBuffer.getD bin 0 = 0 := by
      rw [zeroBuffer, List.getD_eq_getElem?_getD, List.getElem?_replicate]
      split <;> rfl
    rw [zero]
    exact BitVec.getLsbD_zero

theorem Clean.set (clean : packer.Clean buffer) (faithful : packer.Faithful ranges) {write : Write}
    (inRanges : write.InRanges ranges) : packer.Clean (packer.set buffer write.1 write.2) := by
  obtain ⟨range, isRange, inRange⟩ := inRanges
  obtain ⟨info, found, inBins, field, isField⟩ := faithful.hasField write.1 range isRange
  have sized := clean.size_eq
  rw [set_eq found]
  constructor
  · simpa [VariableInfo.set] using sized
  · intro bin position outside
    rw [getD_set (by omega)]
    split
    · rename_i same
      have notCovered : ¬ field.Covers position := of_decide_eq_false
        ((isField.isMask position).symm.trans (outside write.1 info found same.symm))
      have kept := BitField.getLsbD_write isField.isMask (isField.fits write.2 inRange)
        (buffer.getD bin 0) position
      rw [if_neg notCovered] at kept
      rw [isField.clearMask_eq, isField.shift_eq]
      exact kept.trans (clean.padding bin position outside)
    · exact clean.padding bin position outside

theorem Clean.writeAll (faithful : packer.Faithful ranges) {writes : List Write}
    (inRanges : ∀ write ∈ writes, write.InRanges ranges) (clean : packer.Clean buffer) :
    packer.Clean (packer.writeAll buffer writes) := by
  induction writes generalizing buffer with
  | nil => exact clean
  | cons write writes inductionHypothesis =>
    obtain ⟨first, rest⟩ := List.forall_mem_cons.mp inRanges
    exact inductionHypothesis rest (clean.set faithful first)

/-- Packed writes have the effect of writes on values. -/
theorem get_writeAll (faithful : packer.Faithful ranges) {writes : List Write}
    (inRanges : ∀ write ∈ writes, write.InRanges ranges) (clean : packer.Clean buffer) :
    ∀ var < ranges.length,
      packer.get (packer.writeAll buffer writes) var = updateAll (packer.get buffer) writes var := by
  induction writes generalizing buffer with
  | nil => exact fun _ _ => rfl
  | cons write writes inductionHypothesis =>
    intro var bound
    obtain ⟨first, rest⟩ := List.forall_mem_cons.mp inRanges
    obtain ⟨range, isRange, inRange⟩ := id first
    have written : ∀ other < ranges.length, packer.get (packer.set buffer write.1 write.2) other =
        Function.update (packer.get buffer) write.1 write.2 other := by
      intro other otherBound
      by_cases same : other = write.1
      · rw [same, Function.update_self]
        exact faithful.get_set_self clean.size_eq isRange inRange
      · rw [Function.update_of_ne same]
        exact faithful.get_set_of_ne clean.size_eq isRange inRange same otherBound
    have tail := inductionHypothesis rest (clean.set faithful first) var bound
    rw [writeAll, List.foldl_cons, ← writeAll, tail]
    exact updateAll_congr written writes var bound

theorem Clean.ext (faithful : packer.Faithful ranges) {other : List Bin} (clean : packer.Clean buffer)
    (otherClean : packer.Clean other)
    (same : ∀ var < ranges.length, packer.get buffer var = packer.get other var) :
    buffer = other := by
  have bits : ∀ bin position,
      (buffer.getD bin 0).getLsbD position = (other.getD bin 0).getLsbD position := by
    intro bin position
    by_cases padding : ∀ (var : ℕ) (info : VariableInfo),
        packer.varInfos[var]? = some (some info) → info.binIndex = bin →
          info.readMask.getLsbD position = false
    · rw [clean.padding bin position padding, otherClean.padding bin position padding]
    · -- some variable has this bit, and its value decides it
      push Not at padding
      obtain ⟨var, info, found, inBin, bit⟩ := padding
      have bound : var < ranges.length := faithful.length_eq ▸ (List.getElem?_eq_some_iff.mp found).1
      obtain ⟨fieldInfo, fieldFound, _, field, isField⟩ :=
        faithful.hasField var ranges[var] (List.getElem?_eq_getElem bound)
      rw [found] at fieldFound
      cases fieldFound
      have covered : field.Covers position := of_decide_eq_true
        ((isField.isMask position).symm.trans (Bool.eq_true_of_not_eq_false bit))
      have readings := same var bound
      rw [get_eq found, get_eq found, VariableInfo.get, VariableInfo.get, isField.shift_eq,
        inBin] at readings
      exact BitField.getLsbD_eq_of_read_eq isField.isMask readings covered
  apply List.ext_getElem
  · rw [clean.size_eq, otherClean.size_eq]
  · intro bin bound otherBound
    apply BitVec.eq_of_getLsbD_eq
    intro position _
    simpa [bound, otherBound] using bits bin position

end IntPacker

end CutPlan.Search
