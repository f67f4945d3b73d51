import CutPlan.Lib.BitField

/-! # Packing state variables into bins

`IntPacker` gives every variable a run of bits in one of its bins: finite domains as many bits as
their size asks for, numeric variables a whole bin.  Bins are filled greedily with the largest
variable that still fits.
-/

namespace CutPlan.Search

open CutPlan.Lib (BitField)

abbrev ContainerInt := BitVec 64

abbrev Bin := ContainerInt

def bitsPerBin : ℕ := 64

/-- `get_bit_mask`: ones at the positions from `start` up to but not including `stop`. -/
def getBitMask (start stop : ℕ) : Bin :=
  let length := stop - start
  if length = bitsPerBin then ~~~0 else ((1#64 <<< length) - 1#64) <<< start

/-- The loop of `get_bit_size_for_range`. -/
def countBits (range numBits : ℕ) : ℕ :=
  if 2 ^ numBits < range then countBits range (numBits + 1) else numBits
termination_by range - 2 ^ numBits
decreasing_by
  have positive : 0 < 2 ^ numBits := Nat.two_pow_pos _
  rw [Nat.pow_succ]
  omega

/-- The largest container value stands for a numeric variable; others are cut to 32 bits. -/
def getBitSizeForRange (range : ContainerInt) : ℕ :=
  if range = BitVec.allOnes 64 then bitsPerBin else countBits (range.toNat % 2 ^ 32) 0

structure VariableInfo where
  range : ContainerInt
  binIndex : ℕ
  shift : ℕ
  readMask : Bin
  clearMask : Bin
  deriving DecidableEq, Repr

namespace VariableInfo

/-- The constructor with three arguments. -/
def ofRange (range : ContainerInt) (binIndex shift : ℕ) : VariableInfo :=
  let readMask := getBitMask shift (shift + getBitSizeForRange range)
  { range := range, binIndex := binIndex, shift := shift
    readMask := readMask, clearMask := ~~~readMask }

def get (info : VariableInfo) (buffer : List Bin) : ContainerInt :=
  (buffer.getD info.binIndex 0 &&& info.readMask) >>> info.shift

def set (info : VariableInfo) (buffer : List Bin) (value : ContainerInt) : List Bin :=
  buffer.modify info.binIndex fun bin => (bin &&& info.clearMask) ||| (value <<< info.shift)

end VariableInfo

/-- A variable that was not packed yet has no information. -/
structure IntPacker where
  varInfos : List (Option VariableInfo)
  numBins : ℕ
  deriving DecidableEq, Repr

namespace IntPacker

def get (packer : IntPacker) (buffer : List Bin) (var : ℕ) : ContainerInt :=
  match packer.varInfos.getD var none with
  | none => 0
  | some info => info.get buffer

def set (packer : IntPacker) (buffer : List Bin) (var : ℕ) (value : ContainerInt) : List Bin :=
  match packer.varInfos.getD var none with
  | none => buffer
  | some info => info.set buffer value

/-- The local state of the construction. -/
structure Packing where
  varInfos : List (Option VariableInfo)
  bitsToVars : List (List ℕ)

/-- `bits_to_vars`: the variables of each bit size, the lowest index last. -/
def bitsToVars (ranges : List ContainerInt) : List (List ℕ) :=
  (List.range ranges.length).reverse.foldl
    (fun table var => table.modify (getBitSizeForRange (ranges.getD var 0)) (· ++ [var]))
    (List.replicate (bitsPerBin + 1) [])

/-- The largest size up to `bits` that some variable still has. -/
def largestFitting (table : List (List ℕ)) : ℕ → ℕ
  | 0 => 0
  | bits + 1 => if (table.getD (bits + 1) []).isEmpty then largestFitting table bits else bits + 1

theorem largestFitting_le (table : List (List ℕ)) (bits : ℕ) : largestFitting table bits ≤ bits := by
  induction bits with
  | zero => exact le_refl _
  | succ bits inductionHypothesis =>
    unfold largestFitting
    split
    · exact inductionHypothesis.trans (Nat.le_succ bits)
    · exact le_refl _

/-- Moves a variable of size `bits` from the table into the current bin. -/
def Packing.place (ranges : List ContainerInt) (binIndex usedBits bits var : ℕ)
    (packing : Packing) : Packing where
  varInfos := packing.varInfos.set var
    (some (.ofRange (ranges.getD var 0) binIndex usedBits))
  bitsToVars := packing.bitsToVars.modify bits List.dropLast

/-- The loop of `pack_one_bin`. -/
def fillBin (ranges : List ContainerInt) (binIndex usedBits numVarsInBin : ℕ)
    (packing : Packing) : ℕ × Packing :=
  let bits := largestFitting packing.bitsToVars (bitsPerBin - usedBits)
  if bits = 0 then (numVarsInBin, packing)
  else
    match (packing.bitsToVars.getD bits []).getLast? with
    | none => (numVarsInBin, packing)
    | some var =>
      fillBin ranges binIndex (usedBits + bits) (numVarsInBin + 1)
        (packing.place ranges binIndex usedBits bits var)
termination_by bitsPerBin - usedBits
decreasing_by
  have fits := largestFitting_le packing.bitsToVars (bitsPerBin - usedBits)
  omega

/-- The loop of `pack_bins`, with a bound on the number of bins. -/
def packBins (ranges : List ContainerInt) (fuel packedVars numBins : ℕ) (packing : Packing) :
    Option IntPacker :=
  if packedVars = ranges.length then some ⟨packing.varInfos, numBins⟩
  else
    match fuel with
    | 0 => none
    | fuel + 1 =>
      let packed := fillBin ranges numBins 0 0 packing
      packBins ranges fuel (packedVars + packed.1) (numBins + 1) packed.2

def ofRanges (fuel : ℕ) (ranges : List ContainerInt) : Option IntPacker :=
  packBins ranges fuel 0 0 ⟨List.replicate ranges.length none, bitsToVars ranges⟩

/-! ## Sizes in bits -/

/-- A domain size, or the mark of a numeric variable. -/
def Packable (range : ContainerInt) : Prop :=
  (2 ≤ range.toNat ∧ range.toNat ≤ 2 ^ 32 - 1) ∨ range = BitVec.allOnes 64

/-- The values of a variable: those below its range, any for a numeric one. -/
def InRange (range value : ContainerInt) : Prop :=
  value.toNat < range.toNat ∨ range = BitVec.allOnes 64

theorem le_countBits (range numBits : ℕ) : range ≤ 2 ^ countBits range numBits := by
  induction numBits using countBits.induct range with
  | case1 numBits smaller inductionHypothesis =>
    rw [countBits, if_pos smaller]
    exact inductionHypothesis
  | case2 numBits enough =>
    rw [countBits, if_neg enough]
    exact not_lt.mp enough

theorem countBits_le {range limit : ℕ} (bound : range ≤ 2 ^ limit) (numBits : ℕ)
    (within : numBits ≤ limit) : countBits range numBits ≤ limit := by
  induction numBits using countBits.induct range with
  | case1 numBits smaller inductionHypothesis =>
    rw [countBits, if_pos smaller]
    apply inductionHypothesis
    have below : 2 ^ numBits < 2 ^ limit := smaller.trans_le bound
    exact (Nat.pow_lt_pow_iff_right (by decide)).mp below
  | case2 numBits enough =>
    rwa [countBits, if_neg enough]

theorem Packable.getBitSizeForRange_bounds {range : ContainerInt} (packable : Packable range) :
    0 < getBitSizeForRange range ∧ getBitSizeForRange range ≤ bitsPerBin := by
  unfold getBitSizeForRange
  split
  · decide
  · rename_i finite
    obtain ⟨atLeast, atMost⟩ := packable.resolve_right finite
    have kept : range.toNat % 2 ^ 32 = range.toNat := Nat.mod_eq_of_lt (by omega)
    rw [kept]
    constructor
    · by_contra none
      have enough := le_countBits range.toNat 0
      rw [Nat.eq_zero_of_not_pos none] at enough
      omega
    · have bound := @countBits_le range.toNat 32 (by omega) 0 (by omega)
      unfold bitsPerBin
      omega

theorem Packable.fits {range value : ContainerInt} (packable : Packable range)
    (inRange : InRange range value) : value.toNat < 2 ^ getBitSizeForRange range := by
  unfold getBitSizeForRange
  split
  · exact value.isLt
  · rename_i finite
    obtain ⟨atLeast, atMost⟩ := packable.resolve_right finite
    have kept : range.toNat % 2 ^ 32 = range.toNat := Nat.mod_eq_of_lt (by omega)
    rw [kept]
    exact (inRange.resolve_right finite).trans_le (le_countBits _ _)

/-! ## Filling bins -/

abbrev size (ranges : List ContainerInt) (var : ℕ) : ℕ := getBitSizeForRange (ranges.getD var 0)

/-- The table holds the variables without a place; fields in one bin follow one another, and those
of the bin that is being filled end where its free bits begin. -/
structure Packing.Valid (ranges : List ContainerInt) (numBins usedBits : ℕ) (packing : Packing) :
    Prop where
  length_eq : packing.varInfos.length = ranges.length
  pending : ∀ bits var, var ∈ packing.bitsToVars.getD bits [] ↔
    packing.varInfos[var]? = some none ∧ size ranges var = bits
  nodup : ∀ bits, (packing.bitsToVars.getD bits []).Nodup
  placed : ∀ var info, packing.varInfos[var]? = some (some info) →
    info = .ofRange (ranges.getD var 0) info.binIndex info.shift ∧
      info.shift + size ranges var ≤ bitsPerBin ∧ info.binIndex < numBins
  current : ∀ var info, packing.varInfos[var]? = some (some info) → info.binIndex + 1 = numBins →
    info.shift + size ranges var ≤ usedBits
  apart : ∀ first second firstInfo secondInfo, first ≠ second →
    packing.varInfos[first]? = some (some firstInfo) →
    packing.varInfos[second]? = some (some secondInfo) →
    firstInfo.binIndex = secondInfo.binIndex →
    firstInfo.shift + size ranges first ≤ secondInfo.shift ∨
      secondInfo.shift + size ranges second ≤ firstInfo.shift

namespace Packing

variable {ranges : List ContainerInt} {packing : Packing}

theorem Valid.newBin {numBins usedBits : ℕ} (valid : packing.Valid ranges numBins usedBits) :
    packing.Valid ranges (numBins + 1) 0 where
  length_eq := valid.length_eq
  pending := valid.pending
  nodup := valid.nodup
  placed := fun var info found => by
    obtain ⟨made, within, inBins⟩ := valid.placed var info found
    exact ⟨made, within, by omega⟩
  current := fun var info found inNew => by
    obtain ⟨_, _, inBins⟩ := valid.placed var info found
    omega
  apart := valid.apart

theorem mem_dropLast_iff {list : List ℕ} {last var : ℕ} (nodup : list.Nodup)
    (isLast : list.getLast? = some last) : var ∈ list.dropLast ↔ var ∈ list ∧ var ≠ last := by
  have split := List.dropLast_append_getLast? last isLast
  rw [← split] at nodup
  have absent : last ∉ list.dropLast := by
    intro member
    exact (List.disjoint_of_nodup_append nodup) member (by simp)
  nth_rewrite 2 [← split]
  simp only [List.mem_append, List.mem_singleton]
  constructor
  · intro member
    exact ⟨.inl member, fun same => absent (same ▸ member)⟩
  · intro found
    exact found.1.resolve_right found.2

theorem getD_modify (table : List (List ℕ)) (changed bits : ℕ) :
    (table.modify changed List.dropLast).getD bits [] =
      if changed = bits then (table.getD bits []).dropLast else table.getD bits [] := by
  rw [List.getD_eq_getElem?_getD, List.getElem?_modify, List.getD_eq_getElem?_getD]
  split <;> cases table[bits]? <;> rfl

theorem getElem?_place (ranges : List ContainerInt) (binIndex usedBits bits : ℕ) {var : ℕ}
    (bound : var < packing.varInfos.length) (other : ℕ) :
    (packing.place ranges binIndex usedBits bits var).varInfos[other]? =
      if other = var then some (some (.ofRange (ranges.getD var 0) binIndex usedBits))
      else packing.varInfos[other]? := by
  by_cases same : other = var
  · subst same
    simp [place, bound]
  · simp [place, same, Ne.symm same]

/-- A variable of the chosen size goes right behind the bits in use. -/
theorem Valid.place {binIndex usedBits var : ℕ}
    (valid : packing.Valid ranges (binIndex + 1) usedBits) (last :
      (packing.bitsToVars.getD (size ranges var) []).getLast? = some var)
    (fits : usedBits + size ranges var ≤ bitsPerBin) :
    (packing.place ranges binIndex usedBits (size ranges var) var).Valid ranges (binIndex + 1)
      (usedBits + size ranges var) := by
  have waiting := ((valid.pending _ _).mp (List.mem_of_getLast? last)).1
  have bound : var < packing.varInfos.length := (List.getElem?_eq_some_iff.mp waiting).1
  have lookup := getElem?_place ranges binIndex usedBits (size ranges var) bound
  constructor
  · simpa [Packing.place] using valid.length_eq
  · intro bits other
    rw [lookup]
    simp only [Packing.place, getD_modify]
    by_cases same : other = var
    · subst same
      have gone : ¬ (some (some (VariableInfo.ofRange (ranges.getD other 0) binIndex usedBits)) =
          some none ∧ size ranges other = bits) := by simp
      rw [if_pos rfl, iff_false_right gone]
      split
      · rename_i here
        subst here
        rw [mem_dropLast_iff (valid.nodup _) last]
        exact fun member => member.2 rfl
      · rename_i elsewhere
        exact fun member => elsewhere ((valid.pending bits other).mp member).2
    · rw [if_neg same, ← valid.pending]
      split
      · rename_i here
        subst here
        rw [mem_dropLast_iff (valid.nodup _) last]
        exact and_iff_left same
      · rfl
  · intro bits
    simp only [Packing.place, getD_modify]
    split
    · exact (valid.nodup bits).sublist (List.dropLast_sublist _)
    · exact valid.nodup bits
  · intro other info found
    rw [lookup] at found
    split at found
    · rename_i same
      cases found
      subst same
      exact ⟨rfl, fits, by simp [VariableInfo.ofRange]⟩
    · exact valid.placed other info found
  · intro other info found inCurrent
    rw [lookup] at found
    split at found
    · rename_i same
      cases found
      subst same
      exact le_refl _
    · exact (valid.current other info found inCurrent).trans (Nat.le_add_right _ _)
  · intro first second firstInfo secondInfo different firstFound secondFound sameBin
    rw [lookup] at firstFound secondFound
    by_cases firstNew : first = var
    · have secondOld : second ≠ var := fun same => different (firstNew.trans same.symm)
      rw [if_pos firstNew] at firstFound
      rw [if_neg secondOld] at secondFound
      cases firstFound
      exact .inr (valid.current second secondInfo secondFound (by simp [← sameBin, VariableInfo.ofRange]))
    · rw [if_neg firstNew] at firstFound
      by_cases secondNew : second = var
      · rw [if_pos secondNew] at secondFound
        cases secondFound
        exact .inl (valid.current first firstInfo firstFound (by simp [sameBin, VariableInfo.ofRange]))
      · rw [if_neg secondNew] at secondFound
        exact valid.apart first second firstInfo secondInfo different firstFound secondFound sameBin

/-- The number of variables without a place. -/
def unpacked (packing : Packing) : ℕ := packing.varInfos.countP Option.isNone

theorem unpacked_place (ranges : List ContainerInt) (binIndex usedBits bits : ℕ) {var : ℕ}
    (waiting : packing.varInfos[var]? = some none) :
    (packing.place ranges binIndex usedBits bits var).unpacked + 1 = packing.unpacked := by
  obtain ⟨bound, empty⟩ := List.getElem?_eq_some_iff.mp waiting
  have positive : 0 < packing.varInfos.countP Option.isNone :=
    List.countP_pos_iff.mpr ⟨packing.varInfos[var], List.getElem_mem bound, by simp [empty]⟩
  simp only [unpacked, place, List.countP_set bound, empty]
  simp
  omega

end Packing

theorem largestFitting_nonempty {table : List (List ℕ)} {bits : ℕ}
    (found : largestFitting table bits ≠ 0) : table.getD (largestFitting table bits) [] ≠ [] := by
  induction bits with
  | zero => simp [largestFitting] at found
  | succ bits inductionHypothesis =>
    unfold largestFitting at found ⊢
    split
    · rename_i empty
      rw [if_pos empty] at found
      exact inductionHypothesis found
    · rename_i occupied
      simpa using occupied

theorem largestFitting_ne_zero {table : List (List ℕ)} {bits limit : ℕ} (positive : 0 < bits)
    (within : bits ≤ limit) (occupied : table.getD bits [] ≠ []) :
    largestFitting table limit ≠ 0 := by
  induction limit with
  | zero => omega
  | succ limit inductionHypothesis =>
    unfold largestFitting
    split
    · rename_i empty
      have other : bits ≠ limit + 1 := by
        intro same
        subst same
        exact occupied (by simpa using empty)
      exact inductionHypothesis (by omega)
    · omega

/-- Filling a bin keeps the invariant and counts what it places; where something fits, something is
placed. -/
theorem fillBin_valid {ranges : List ContainerInt} {binIndex usedBits numVarsInBin : ℕ}
    {packing : Packing} (valid : packing.Valid ranges (binIndex + 1) usedBits) :
    (∃ endBits, (fillBin ranges binIndex usedBits numVarsInBin packing).2.Valid ranges
        (binIndex + 1) endBits) ∧
      (fillBin ranges binIndex usedBits numVarsInBin packing).1 +
          (fillBin ranges binIndex usedBits numVarsInBin packing).2.unpacked =
        numVarsInBin + packing.unpacked ∧
      numVarsInBin ≤ (fillBin ranges binIndex usedBits numVarsInBin packing).1 ∧
      (largestFitting packing.bitsToVars (bitsPerBin - usedBits) ≠ 0 →
        numVarsInBin < (fillBin ranges binIndex usedBits numVarsInBin packing).1) := by
  induction usedBits, numVarsInBin, packing using fillBin.induct ranges binIndex with
  | case1 usedBits numVarsInBin packing bits none =>
    rw [fillBin, if_pos none]
    exact ⟨⟨usedBits, valid⟩, rfl, le_refl _, fun found => absurd none found⟩
  | case2 usedBits numVarsInBin packing bits found missing =>
    have occupied := largestFitting_nonempty found
    exact absurd (List.getLast?_eq_none_iff.mp missing) occupied
  | case3 usedBits numVarsInBin packing bits found var last inductionHypothesis =>
    have step : fillBin ranges binIndex usedBits numVarsInBin packing =
        fillBin ranges binIndex (usedBits + bits) (numVarsInBin + 1)
          (packing.place ranges binIndex usedBits bits var) := by
      rw [fillBin, if_neg found]
      simp only [bits] at last ⊢
      rw [last]
    have pending := (valid.pending bits var).mp (List.mem_of_getLast? last)
    have sized : size ranges var = bits := pending.2
    have within := largestFitting_le packing.bitsToVars (bitsPerBin - usedBits)
    have fits : usedBits + size ranges var ≤ bitsPerBin := by
      rw [sized]
      omega
    rw [← sized] at last inductionHypothesis
    have placed := inductionHypothesis (valid.place last fits)
    have counted := Packing.unpacked_place ranges binIndex usedBits bits pending.1
    rw [step]
    rw [sized] at placed
    obtain ⟨validAfter, total, more, _⟩ := placed
    exact ⟨validAfter, by omega, by omega, fun _ => by omega⟩


/-! ## Packing all variables -/

theorem foldl_bitsToVars (ranges : List ContainerInt) (bits : ℕ) (vars : List ℕ) :
    ∀ table : List (List ℕ), (∀ var ∈ vars, size ranges var < table.length) →
      (vars.foldl (fun table var => table.modify (size ranges var) (· ++ [var])) table).getD bits [] =
        table.getD bits [] ++ vars.filter fun var => size ranges var = bits := by
  induction vars with
  | nil => simp
  | cons var vars inductionHypothesis =>
    intro table sizes
    obtain ⟨inTable, rest⟩ := List.forall_mem_cons.mp sizes
    rw [List.foldl_cons, inductionHypothesis _ (by simpa using rest)]
    have changed : (table.modify (size ranges var) (· ++ [var])).getD bits [] =
        if size ranges var = bits then table.getD bits [] ++ [var] else table.getD bits [] := by
      rw [List.getD_eq_getElem?_getD, List.getElem?_modify, List.getD_eq_getElem?_getD]
      split
      · rename_i here
        rw [← here, List.getElem?_eq_getElem inTable]
        rfl
      · cases table[bits]? <;> rfl
    rw [changed]
    by_cases here : size ranges var = bits <;> simp [here]

theorem mem_bitsToVars {ranges : List ContainerInt}
    (sizes : ∀ var < ranges.length, size ranges var ≤ bitsPerBin) (bits : ℕ) :
    (bitsToVars ranges).getD bits [] =
      (List.range ranges.length).reverse.filter fun var => size ranges var = bits := by
  have folded := foldl_bitsToVars ranges bits (List.range ranges.length).reverse
    (List.replicate (bitsPerBin + 1) []) (by simpa [Nat.lt_succ_iff] using sizes)
  have empty : (List.replicate (bitsPerBin + 1) ([] : List ℕ)).getD bits [] = [] := by
    rw [List.getD_eq_getElem?_getD, List.getElem?_replicate]
    split <;> rfl
  rw [bitsToVars, folded, empty, List.nil_append]

theorem valid_initial {ranges : List ContainerInt}
    (sizes : ∀ var < ranges.length, size ranges var ≤ bitsPerBin) :
    Packing.Valid ranges 0 0 ⟨List.replicate ranges.length none, bitsToVars ranges⟩ := by
  have nothing : ∀ (var : ℕ) (info : VariableInfo),
      (List.replicate ranges.length (none : Option VariableInfo))[var]? ≠ some (some info) := by
    intro var info found
    rw [List.getElem?_replicate] at found
    split at found <;> simp at found
  constructor
  · simp
  · intro bits var
    rw [mem_bitsToVars sizes, List.getElem?_replicate]
    by_cases bound : var < ranges.length <;> simp [bound]
  · intro bits
    rw [mem_bitsToVars sizes]
    exact (List.nodup_reverse.mpr List.nodup_range).filter _
  · intro var info found
    exact absurd found (nothing var info)
  · intro var info found
    exact absurd found (nothing var info)
  · intro first second firstInfo secondInfo _ found
    exact absurd found (nothing first firstInfo)

/-- While a variable is left, a new bin takes at least one. -/
theorem fillBin_progress {ranges : List ContainerInt} {numBins usedBits : ℕ} {packing : Packing}
    (packable : ∀ range ∈ ranges, Packable range)
    (valid : packing.Valid ranges numBins usedBits) (left : packing.unpacked ≠ 0) :
    0 < (fillBin ranges numBins 0 0 packing).1 := by
  obtain ⟨entry, member, empty⟩ := List.countP_pos_iff.mp (Nat.pos_of_ne_zero left)
  obtain ⟨var, bound, rfl⟩ := List.mem_iff_getElem.mp member
  have waiting : packing.varInfos[var]? = some none := by
    rw [List.getElem?_eq_getElem bound]
    exact congrArg some (Option.isNone_iff_eq_none.mp empty)
  have inRanges : var < ranges.length := valid.length_eq ▸ bound
  have isRange : ranges.getD var 0 = ranges[var] := by simp [inRanges]
  have bounds := (packable ranges[var] (List.getElem_mem inRanges)).getBitSizeForRange_bounds
  rw [← isRange] at bounds
  apply (fillBin_valid valid.newBin).2.2.2
  apply largestFitting_ne_zero bounds.1 bounds.2
  have inTable := (valid.pending (size ranges var) var).mpr ⟨waiting, rfl⟩
  exact List.ne_nil_of_mem inTable

theorem packBins_valid {ranges : List ContainerInt} (packable : ∀ range ∈ ranges, Packable range) :
    ∀ (left packedVars numBins usedBits : ℕ) (packing : Packing), packing.unpacked = left →
      packedVars + left = ranges.length → packing.Valid ranges numBins usedBits →
      ∃ packer endBits table, packer.varInfos.countP Option.isNone = 0 ∧
        Packing.Valid ranges packer.numBins endBits ⟨packer.varInfos, table⟩ ∧
        ∀ fuel, left ≤ fuel → packBins ranges fuel packedVars numBins packing = some packer := by
  intro left
  induction left using Nat.strong_induction_on with
  | _ left inductionHypothesis =>
    intro packedVars numBins usedBits packing unpacked total valid
    by_cases done : left = 0
    · refine ⟨⟨packing.varInfos, numBins⟩, usedBits, packing.bitsToVars,
        unpacked.trans done, valid, ?_⟩
      intro fuel _
      unfold packBins
      rw [if_pos (by omega)]
    · have progress := fillBin_progress packable valid (unpacked ▸ done)
      obtain ⟨⟨endBits, validAfter⟩, counted, _, _⟩ :=
        @fillBin_valid _ _ _ 0 _ valid.newBin
      obtain ⟨packer, packerBits, table, allPacked, packerValid, returns⟩ :=
        inductionHypothesis (fillBin ranges numBins 0 0 packing).2.unpacked (by omega)
          (packedVars + (fillBin ranges numBins 0 0 packing).1) (numBins + 1) endBits
          (fillBin ranges numBins 0 0 packing).2 rfl (by omega) validAfter
      refine ⟨packer, packerBits, table, allPacked, packerValid, ?_⟩
      intro fuel enough
      cases fuel with
      | zero => omega
      | succ fuel =>
        rw [packBins, if_neg (by omega)]
        exact returns fuel (by omega)

/-! ## Fields -/

/-- The field of a variable in its bin. -/
structure IsField (range : ContainerInt) (info : VariableInfo) (field : BitField bitsPerBin) :
    Prop where
  shift_eq : info.shift = field.shift
  isMask : field.IsMask info.readMask
  clearMask_eq : info.clearMask = ~~~info.readMask
  fits : ∀ value, InRange range value → field.Fits value

theorem isField_ofRange {range : ContainerInt} (packable : Packable range) {shift : ℕ}
    (binIndex : ℕ) (within : shift + getBitSizeForRange range ≤ bitsPerBin) :
    IsField range (.ofRange range binIndex shift) ⟨shift, getBitSizeForRange range, within⟩ where
  shift_eq := rfl
  isMask := by
    have length : shift + getBitSizeForRange range - shift = getBitSizeForRange range := by omega
    unfold VariableInfo.ofRange getBitMask
    simp only [length]
    by_cases full : getBitSizeForRange range = bitsPerBin
    · rw [if_pos full]
      exact BitField.isMask_full _ full
    · rw [if_neg full]
      exact BitField.isMask_shifted ⟨shift, getBitSizeForRange range, within⟩ (by
        simp only
        omega)
  clearMask_eq := rfl
  fits := fun value inRange => packable.fits inRange

/-- Every variable has a field in one of the bins that is wide enough for its range, and no bit
belongs to two variables. -/
structure Faithful (ranges : List ContainerInt) (packer : IntPacker) : Prop where
  length_eq : packer.varInfos.length = ranges.length
  hasField : ∀ (var : ℕ) (range : ContainerInt), ranges[var]? = some range →
    ∃ info, packer.varInfos[var]? = some (some info) ∧ info.binIndex < packer.numBins ∧
      ∃ field, IsField range info field
  apart : ∀ (first second : ℕ) (firstInfo secondInfo : VariableInfo), first ≠ second →
    packer.varInfos[first]? = some (some firstInfo) →
    packer.varInfos[second]? = some (some secondInfo) →
    firstInfo.binIndex = secondInfo.binIndex → firstInfo.readMask &&& secondInfo.readMask = 0

theorem Packing.Valid.faithful {ranges : List ContainerInt} {packer : IntPacker} {endBits : ℕ}
    {table : List (List ℕ)} (packable : ∀ range ∈ ranges, Packable range)
    (allPacked : packer.varInfos.countP Option.isNone = 0)
    (valid : Packing.Valid ranges packer.numBins endBits ⟨packer.varInfos, table⟩) :
    Faithful ranges packer := by
  -- what the invariant says of a variable with a place
  have isField : ∀ var range info, ranges[var]? = some range →
      packer.varInfos[var]? = some (some info) →
      info.binIndex < packer.numBins ∧ ∃ field : BitField bitsPerBin, IsField range info field ∧
        field.shift = info.shift ∧ field.width = size ranges var := by
    intro var range info isRange found
    obtain ⟨made, within, inBins⟩ := valid.placed var info found
    have sameRange : ranges.getD var 0 = range := by simp [isRange]
    have member : range ∈ ranges := List.mem_of_getElem? isRange
    unfold size at within
    rw [sameRange] at made within
    refine ⟨inBins, ⟨info.shift, getBitSizeForRange range, within⟩, ?_, rfl, ?_⟩
    · have isField := isField_ofRange (packable range member) info.binIndex within
      rwa [← made] at isField
    · unfold size
      rw [sameRange]
  refine ⟨valid.length_eq, ?_, ?_⟩
  · intro var range isRange
    have bound : var < packer.varInfos.length := by
      rw [valid.length_eq]
      exact (List.getElem?_eq_some_iff.mp isRange).1
    cases found : packer.varInfos[var] with
    | none =>
      have missing : 0 < packer.varInfos.countP Option.isNone :=
        List.countP_pos_iff.mpr ⟨packer.varInfos[var], List.getElem_mem bound, by simp [found]⟩
      omega
    | some info =>
      have lookup : packer.varInfos[var]? = some (some info) := by
        rw [List.getElem?_eq_getElem bound, found]
      obtain ⟨inBins, field, itsField, _⟩ := isField var range info isRange lookup
      exact ⟨info, lookup, inBins, field, itsField⟩
  · intro first second firstInfo secondInfo different firstFound secondFound sameBin
    have firstBound := (List.getElem?_eq_some_iff.mp firstFound).1
    have secondBound := (List.getElem?_eq_some_iff.mp secondFound).1
    rw [valid.length_eq] at firstBound secondBound
    obtain ⟨_, firstField, firstIs, firstShift, firstWidth⟩ := isField first ranges[first] firstInfo
      (List.getElem?_eq_getElem firstBound) firstFound
    obtain ⟨_, secondField, secondIs, secondShift, secondWidth⟩ :=
      isField second ranges[second] secondInfo (List.getElem?_eq_getElem secondBound) secondFound
    apply (BitField.disjoint_iff firstIs.isMask secondIs.isMask).mp
    have order := valid.apart first second firstInfo secondInfo different firstFound secondFound sameBin
    intro position inFirst inSecond
    unfold BitField.Covers at inFirst inSecond
    omega

/-! ## Reading back what was written -/

section ReadWrite

variable {ranges : List ContainerInt} {packer : IntPacker} {buffer : List Bin} {var : ℕ}
  {range value : ContainerInt}

theorem getD_set {info : VariableInfo} (inBuffer : info.binIndex < buffer.length) (bin : ℕ) :
    (info.set buffer value).getD bin 0 =
      if bin = info.binIndex then
        (buffer.getD bin 0 &&& info.clearMask) ||| (value <<< info.shift)
      else buffer.getD bin 0 := by
  unfold VariableInfo.set
  rw [List.getD_eq_getElem?_getD, List.getElem?_modify, List.getD_eq_getElem?_getD]
  by_cases same : info.binIndex = bin
  · subst same
    simp [inBuffer]
  · simp [same, Ne.symm same]

theorem get_eq {info : VariableInfo} (found : packer.varInfos[var]? = some (some info)) :
    packer.get buffer var = info.get buffer := by
  simp [get, found]

theorem set_eq {info : VariableInfo} (found : packer.varInfos[var]? = some (some info)) :
    packer.set buffer var value = info.set buffer value := by
  simp [set, found]

theorem Faithful.get_set_self (faithful : packer.Faithful ranges)
    (size : buffer.length = packer.numBins) (isRange : ranges[var]? = some range)
    (inRange : InRange range value) : packer.get (packer.set buffer var value) var = value := by
  obtain ⟨info, found, inBins, field, isField⟩ := faithful.hasField var range isRange
  rw [set_eq found, get_eq found, VariableInfo.get, getD_set (by omega), if_pos rfl,
    isField.clearMask_eq, isField.shift_eq]
  exact BitField.read_write isField.isMask (isField.fits value inRange) _

theorem Faithful.get_set_of_ne (faithful : packer.Faithful ranges)
    (size : buffer.length = packer.numBins) (isRange : ranges[var]? = some range)
    (inRange : InRange range value) {other : ℕ} (different : other ≠ var)
    (otherBound : other < ranges.length) :
    packer.get (packer.set buffer var value) other = packer.get buffer other := by
  obtain ⟨info, found, inBins, field, isField⟩ := faithful.hasField var range isRange
  obtain ⟨otherInfo, otherFound, _, otherField, otherIsField⟩ :=
    faithful.hasField other ranges[other] (List.getElem?_eq_getElem otherBound)
  rw [set_eq found, get_eq otherFound, get_eq otherFound, VariableInfo.get, VariableInfo.get,
    getD_set (by omega)]
  by_cases sameBin : otherInfo.binIndex = info.binIndex
  · have disjoint : field.Disjoint otherField :=
      (BitField.disjoint_iff isField.isMask otherIsField.isMask).mpr
        (faithful.apart var other info otherInfo different.symm found otherFound sameBin.symm)
    rw [if_pos sameBin, isField.clearMask_eq, isField.shift_eq, otherIsField.shift_eq]
    exact BitField.read_write_of_disjoint isField.isMask otherIsField.isMask disjoint
      (isField.fits value inRange) _
  · rw [if_neg sameBin]

end ReadWrite

theorem exists_faithful {ranges : List ContainerInt} (packable : ∀ range ∈ ranges, Packable range) :
    ∃ packer, (∀ fuel, ranges.length ≤ fuel → ofRanges fuel ranges = some packer) ∧
      packer.Faithful ranges := by
  have sizes : ∀ var < ranges.length, size ranges var ≤ bitsPerBin := by
    intro var bound
    have isRange : ranges.getD var 0 = ranges[var] := by simp [bound]
    unfold size
    rw [isRange]
    exact (packable ranges[var] (List.getElem_mem bound)).getBitSizeForRange_bounds.2
  obtain ⟨packer, endBits, table, allPacked, valid, returns⟩ :=
    packBins_valid packable ranges.length 0 0 0
      ⟨List.replicate ranges.length none, bitsToVars ranges⟩
      (by simp [Packing.unpacked, List.countP_replicate]) (by omega) (valid_initial sizes)
  exact ⟨packer, returns, valid.faithful packable allPacked⟩

/-- The construction ends, its fields are apart and wide enough, and a value that was written is read
back while the other variables keep theirs. -/
theorem ofRanges_faithful (ranges : List ContainerInt)
    (packable : ∀ range ∈ ranges, Packable range) :
    ∃ packer, (∀ fuel, ranges.length ≤ fuel → ofRanges fuel ranges = some packer) ∧
      packer.Faithful ranges ∧
      ∀ buffer : List Bin, buffer.length = packer.numBins →
        ∀ var range value, ranges[var]? = some range → InRange range value →
          packer.get (packer.set buffer var value) var = value ∧
          ∀ other, other < ranges.length → other ≠ var →
            packer.get (packer.set buffer var value) other = packer.get buffer other := by
  obtain ⟨packer, returns, faithful⟩ := exists_faithful packable
  refine ⟨packer, returns, faithful, ?_⟩
  intro buffer sized var range value isRange inRange
  exact ⟨faithful.get_set_self sized isRange inRange,
    fun other bound different => faithful.get_set_of_ne sized isRange inRange different bound⟩

/-- A boundary domain, a numeric variable and a small domain. -/
theorem ofRanges_faithful_boundary :
    ∃ packer, (∀ fuel, 3 ≤ fuel → ofRanges fuel [4294967295#64, BitVec.allOnes 64, 5#64] = some packer) ∧
      packer.Faithful [4294967295#64, BitVec.allOnes 64, 5#64] ∧
      ∀ buffer : List Bin, buffer.length = packer.numBins →
        ∀ var range value, [4294967295#64, BitVec.allOnes 64, 5#64][var]? = some range →
          InRange range value →
          packer.get (packer.set buffer var value) var = value ∧
          ∀ other, other < 3 → other ≠ var →
            packer.get (packer.set buffer var value) other = packer.get buffer other :=
  ofRanges_faithful [4294967295#64, BitVec.allOnes 64, 5#64] (by
    intro range member
    simp only [List.mem_cons, List.not_mem_nil, or_false] at member
    obtain rfl | rfl | rfl := member
    · exact .inl (by decide)
    · exact .inr rfl
    · exact .inl (by decide))

end IntPacker

end CutPlan.Search
