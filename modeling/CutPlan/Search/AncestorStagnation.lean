import CutPlan.Search.DoubleArithmetic

/-! # Stagnant ancestors

An expanded state is stagnant if it has many ancestors and does not improve meaningfully on the nearest of them.  The
search keeps the best improvement only and compares it once, with the threshold that belongs to it.
-/

namespace CutPlan.Search

open CutPlan.Lib

/-- The depths, after the constructor has moved them into their ranges. -/
structure AncestorConfig where
  ancestorDepth : ℕ
  ancestorDepth_pos : 1 ≤ ancestorDepth
  minDepth : ℕ

namespace AncestorConfig

def traversalDepth (ancestors : AncestorConfig) : ℕ := max ancestors.ancestorDepth ancestors.minDepth

end AncestorConfig

section Model

variable {S F : Type} [DecidableEq F] (arithmetic : FloatArithmetic F) (config : TriggerConfig F)
  (ancestors : AncestorConfig) (parent : S → Option S) (h : S → F)

def ancestorImprovementIsStagnant (bestImprovement currentH : F) : Bool :=
  !arithmetic.less
    (TriggerMonitor.hImprovementThreshold arithmetic config (arithmetic.add currentH bestImprovement) currentH)
    bestImprovement

/-- The loop over the ancestors, with the number of those still allowed.  None if one to compare with is infinite. -/
def inspectAncestors (currentH : F) : (remaining : ℕ) → Option S → (bestImprovement : F) → (inspected : ℕ) →
    Option (F × ℕ)
  | 0, _, bestImprovement, inspected => some (bestImprovement, inspected)
  | _ + 1, none, bestImprovement, inspected => some (bestImprovement, inspected)
  | remaining + 1, some ancestor, bestImprovement, inspected =>
    if inspected < ancestors.ancestorDepth then
      if h ancestor = arithmetic.infinity then none
      else
        inspectAncestors currentH remaining (parent ancestor)
          (arithmetic.max bestImprovement (arithmetic.sub (h ancestor) currentH)) (inspected + 1)
    else inspectAncestors currentH remaining (parent ancestor) bestImprovement (inspected + 1)

def llmAncestorStagnant (node : S) (currentH : F) : Bool :=
  match inspectAncestors arithmetic ancestors parent h currentH ancestors.traversalDepth (parent node)
    (arithmetic.ofNat 0) 0 with
  | none => false
  | some (bestImprovement, inspected) =>
    ancestors.traversalDepth ≤ inspected && ancestorImprovementIsStagnant arithmetic config bestImprovement currentH

end Model

/-! ## The ancestors -/

section Ancestors

variable {S F : Type} [DecidableEq F] {arithmetic : FloatArithmetic F} {config : TriggerConfig F}
  {ancestors : AncestorConfig} {parent : S → Option S} {h : S → F}

/-- The nearest states of a chain of parents. -/
def nearestAncestors (parent : S → Option S) : ℕ → Option S → List S
  | 0, _ => []
  | _ + 1, none => []
  | count + 1, some ancestor => ancestor :: nearestAncestors parent count (parent ancestor)

def bestImprovement (arithmetic : FloatArithmetic F) (h : S → F) (currentH : F) : F → List S → F :=
  List.foldl fun best ancestor => arithmetic.max best (arithmetic.sub (h ancestor) currentH)

variable (parent) in
theorem length_nearestAncestors_le (count : ℕ) (ancestor : Option S) :
    (nearestAncestors parent count ancestor).length ≤ count := by
  fun_induction nearestAncestors parent count ancestor with
  | case1 | case2 => simp
  | case3 count ancestor inductionHypothesis => simpa using inductionHypothesis

/-- The loop finds an infinite ancestor, or counts the ancestors and keeps the best improvement on those to compare
with. -/
theorem inspectAncestors_eq (currentH : F) (remaining : ℕ) (ancestor : Option S) (best : F) (inspected : ℕ) :
    inspectAncestors arithmetic ancestors parent h currentH remaining ancestor best inspected =
      if ∃ compared ∈ (nearestAncestors parent remaining ancestor).take (ancestors.ancestorDepth - inspected),
          h compared = arithmetic.infinity then none
      else
        some (bestImprovement arithmetic h currentH best
            ((nearestAncestors parent remaining ancestor).take (ancestors.ancestorDepth - inspected)),
          inspected + (nearestAncestors parent remaining ancestor).length) := by
  fun_induction inspectAncestors arithmetic ancestors parent h currentH remaining ancestor best inspected with
  | case1 | case2 => simp [nearestAncestors, bestImprovement]
  | case3 remaining ancestor best inspected compares infinite =>
    obtain ⟨rest, isRest⟩ : ∃ rest, ancestors.ancestorDepth - inspected = rest + 1 :=
      ⟨ancestors.ancestorDepth - inspected - 1, by omega⟩
    simp [nearestAncestors, isRest, infinite]
  | case4 remaining ancestor best inspected compares finite inductionHypothesis =>
    obtain ⟨rest, isRest⟩ : ∃ rest, ancestors.ancestorDepth - inspected = rest + 1 :=
      ⟨ancestors.ancestorDepth - inspected - 1, by omega⟩
    have nextRest : ancestors.ancestorDepth - (inspected + 1) = rest := by omega
    rw [inductionHypothesis, nextRest, isRest]
    simp [nearestAncestors, bestImprovement, finite, Nat.add_assoc, Nat.add_comm 1]
  | case5 remaining ancestor best inspected skips inductionHypothesis =>
    have noRest : ancestors.ancestorDepth - inspected = 0 := by omega
    have noNextRest : ancestors.ancestorDepth - (inspected + 1) = 0 := by omega
    rw [inductionHypothesis, noNextRest, noRest]
    simp [nearestAncestors, bestImprovement, Nat.add_assoc, Nat.add_comm 1]

theorem take_nearestAncestors {count more : ℕ} (atMost : count ≤ more) (ancestor : Option S) :
    (nearestAncestors parent more ancestor).take count = nearestAncestors parent count ancestor := by
  induction count generalizing more ancestor with
  | zero => simp [nearestAncestors]
  | succ count inductionHypothesis =>
    obtain ⟨rest, rfl⟩ : ∃ rest, more = rest + 1 := ⟨more - 1, by omega⟩
    cases ancestor with
    | none => rfl
    | some ancestor => simp [nearestAncestors, inductionHypothesis (show count ≤ rest by omega)]

theorem llmAncestorStagnant_eq (node : S) (currentH : F) :
    llmAncestorStagnant arithmetic config ancestors parent h node currentH = true ↔
      (nearestAncestors parent ancestors.traversalDepth (parent node)).length = ancestors.traversalDepth ∧
        (∀ compared ∈ nearestAncestors parent ancestors.ancestorDepth (parent node), h compared ≠ arithmetic.infinity) ∧
        ancestorImprovementIsStagnant arithmetic config
          (bestImprovement arithmetic h currentH (arithmetic.ofNat 0)
            (nearestAncestors parent ancestors.ancestorDepth (parent node))) currentH = true := by
  have length := length_nearestAncestors_le parent ancestors.traversalDepth (parent node)
  have nearest : (nearestAncestors parent ancestors.traversalDepth (parent node)).take ancestors.ancestorDepth =
      nearestAncestors parent ancestors.ancestorDepth (parent node) := take_nearestAncestors (le_max_left _ _) _
  rw [llmAncestorStagnant, inspectAncestors_eq, Nat.sub_zero, nearest]
  by_cases infinite : ∃ compared ∈ nearestAncestors parent ancestors.ancestorDepth (parent node),
      h compared = arithmetic.infinity
  · rw [if_pos infinite]
    simp only [Bool.false_eq_true, false_iff, not_and]
    intro _ finite
    obtain ⟨compared, isCompared, isInfinite⟩ := infinite
    exact absurd isInfinite (finite compared isCompared)
  · rw [if_neg infinite]
    push Not at infinite
    simp only [Nat.zero_add, Bool.and_eq_true, decide_eq_true_eq]
    constructor
    · rintro ⟨deep, stagnant⟩
      exact ⟨by omega, infinite, stagnant⟩
    · rintro ⟨deep, _, stagnant⟩
      exact ⟨by omega, stagnant⟩

end Ancestors

/-! ## Doubles -/

section Doubles

open DoubleArithmetic TriggerMonitor

variable {S : Type} {config : TriggerConfig ExtendedNumber} {ancestors : AncestorConfig} {parent : S → Option S}
  {h : S → ExtendedNumber} {share lesser greater current : ℚ}

/-- A finite h value. -/
structure IsFiniteH (value : ℚ) : Prop where
  holds : FloatingFormat.double.Holds value
  small : value < 2 ^ (1024 : ℤ)

/-- The thresholds are no less than zero, and the relative one is at most one half. -/
structure HasThresholds (config : TriggerConfig ExtendedNumber) (share : ℚ) : Prop where
  absolute : IsNonnegative config.hAbsEpsilon
  relative : config.hRelativeEpsilon = .finite share
  holds : FloatingFormat.double.Holds share
  atMost : share ≤ 1 / 2

theorem lt_max_finite {absolute : ExtendedNumber} (isNonnegative : IsNonnegative absolute) (threshold value : ℚ) :
    (absolute.max (.finite threshold)).lt (.finite value) = (absolute.lt (.finite value) && threshold < value) := by
  obtain rfl | ⟨bound, rfl, _⟩ := isNonnegative
  · rfl
  · rw [ExtendedNumber.max_finite, Bool.eq_iff_iff]
    simp [ExtendedNumber.lt]

theorem lt_finite_of_le {absolute : ExtendedNumber} (isNonnegative : IsNonnegative absolute) (ordered : lesser ≤ greater)
    (exceeds : absolute.lt (.finite lesser) = true) : absolute.lt (.finite greater) = true := by
  obtain rfl | ⟨bound, rfl, _⟩ := isNonnegative
  · simp [ExtendedNumber.lt] at exceeds
  · simp only [ExtendedNumber.lt, decide_eq_true_eq] at exceeds ⊢
    exact exceeds.trans_le ordered

theorem lt_finite_nonpos {absolute : ExtendedNumber} (isNonnegative : IsNonnegative absolute) {value : ℚ}
    (nonpositive : value ≤ 0) : absolute.lt (.finite value) = false := by
  obtain rfl | ⟨bound, rfl, holds, _⟩ := isNonnegative
  · rfl
  · have nonnegative := holds.nonneg
    simp only [ExtendedNumber.lt, decide_eq_false_iff_not, not_lt]
    linarith

theorem IsFiniteH.max (isFirst : IsFiniteH lesser) (isSecond : IsFiniteH greater) : IsFiniteH (max lesser greater) := by
  cases le_total lesser greater with
  | inl ordered => rwa [max_eq_right ordered]
  | inr ordered => rwa [max_eq_left ordered]

theorem hImprovementThreshold_finite (thresholds : HasThresholds config share) (isReference : IsFiniteH greater)
    (isCurrent : IsFiniteH current) :
    hImprovementThreshold doubleArithmetic config (.finite greater) (.finite current) =
      config.hAbsEpsilon.max (.finite (FloatingFormat.double.round (share * max greater current))) := by
  have isScale := isReference.max isCurrent
  have absReference : doubleArithmetic.fabs (.finite greater) = .finite greater :=
    congrArg _ (abs_of_nonneg isReference.holds.nonneg)
  have absCurrent : doubleArithmetic.fabs (.finite current) = .finite current :=
    congrArg _ (abs_of_nonneg isCurrent.holds.nonneg)
  have scale : doubleArithmetic.max (.finite greater) (.finite current) = .finite (max greater current) :=
    ExtendedNumber.max_finite greater current
  rw [hImprovementThreshold, absReference, absCurrent, scale]
  generalize max greater current = scale at isScale
  have shareNonneg := thresholds.holds.nonneg
  have scaleNonneg := isScale.holds.nonneg
  have product : 0 ≤ share * scale := mul_nonneg shareNonneg scaleNonneg
  have below : share * scale ≤ scale := by nlinarith [thresholds.atMost]
  have scaled : doubleArithmetic.mul config.hRelativeEpsilon (.finite scale) =
      .finite (FloatingFormat.double.round (share * scale)) := by
    have rounded := isScale.holds.round_le product below
    rw [thresholds.relative]
    exact (ofRational_of_nonneg product).trans (if_neg (rounded.trans_lt isScale.small).not_ge)
  exact congrArg config.hAbsEpsilon.max scaled

/-- An ancestor is improved on if the rounded difference is more than the absolute threshold and the share of its h. -/
theorem meaningfullyImprovesH_iff (thresholds : HasThresholds config share) (isReference : IsFiniteH greater)
    (isCurrent : IsFiniteH current) :
    meaningfullyImprovesH doubleArithmetic config (.finite greater) (.finite current) = true ↔
      current ≤ greater ∧
        config.hAbsEpsilon.lt (.finite (FloatingFormat.double.round (greater - current))) = true ∧
        FloatingFormat.double.round (share * greater) < FloatingFormat.double.round (greater - current) := by
  have differs := sub_finite isReference.holds isCurrent.holds isReference.small isCurrent.small
  have improves : meaningfullyImprovesH doubleArithmetic config (.finite greater) (.finite current) =
      (hImprovementThreshold doubleArithmetic config (.finite greater) (.finite current)).lt
        (.finite (difference greater current)) := by
    rw [← differs]
    rfl
  rw [improves, hImprovementThreshold_finite thresholds isReference isCurrent, lt_max_finite thresholds.absolute,
    difference]
  by_cases above : current ≤ greater
  · simp [above]
  · have nonpositive := FloatingFormat.double.round_nonneg (show 0 ≤ current - greater by linarith)
    rw [if_neg above, lt_finite_nonpos thresholds.absolute (by linarith)]
    simp [above]

/-- What improves on an ancestor improves on the ancestors of greater h. -/
theorem meaningfullyImprovesH_mono (thresholds : HasThresholds config share) (isLesser : IsFiniteH lesser)
    (isGreater : IsFiniteH greater) (isCurrent : IsFiniteH current) (ordered : lesser ≤ greater)
    (improves : meaningfullyImprovesH doubleArithmetic config (.finite lesser) (.finite current) = true) :
    meaningfullyImprovesH doubleArithmetic config (.finite greater) (.finite current) = true := by
  rw [meaningfullyImprovesH_iff thresholds isLesser isCurrent] at improves
  rw [meaningfullyImprovesH_iff thresholds isGreater isCurrent]
  obtain ⟨above, absolute, relative⟩ := improves
  have rounded := FloatingFormat.double.round_mono (sub_nonneg.mpr above) (sub_le_sub_right ordered current)
  exact ⟨above.trans ordered, lt_finite_of_le thresholds.absolute rounded absolute,
    FloatingFormat.share_lt_sub_mono thresholds.holds thresholds.atMost isCurrent.holds isLesser.holds isGreater.holds above
      ordered relative⟩

/-- The comparison of the best improvement is the one with the ancestor of the greatest h. -/
theorem ancestorImprovementIsStagnant_eq (thresholds : HasThresholds config share) (isGreater : IsFiniteH greater)
    (isCurrent : IsFiniteH current) (above : current ≤ greater) :
    ancestorImprovementIsStagnant doubleArithmetic config (.finite (difference greater current)) (.finite current) =
      !meaningfullyImprovesH doubleArithmetic config (.finite greater) (.finite current) := by
  have currentNonneg := isCurrent.holds.nonneg
  have differenceNonneg := FloatingFormat.double.round_nonneg (sub_nonneg.mpr above)
  have differenceHolds : FloatingFormat.double.Holds (FloatingFormat.double.round (greater - current)) :=
    FloatingFormat.holds_round (sub_nonneg.mpr above)
  have rebuiltIff := FloatingFormat.share_rebuilt_lt_sub_iff thresholds.holds thresholds.atMost isCurrent.holds
    isGreater.holds above
  have higher := FloatingFormat.share_lt_sub_of_lt_rebuilt thresholds.holds thresholds.atMost isCurrent.holds
    isGreater.holds above
  rw [← rebuiltIff] at higher
  rw [ancestorImprovementIsStagnant, difference, if_pos above, Bool.eq_iff_iff, Bool.not_eq_true', Bool.not_eq_true',
    ← not_iff_not, Bool.not_eq_false, Bool.not_eq_false, meaningfullyImprovesH_iff thresholds isGreater isCurrent, ← rebuiltIff]
  generalize FloatingFormat.double.round (greater - current) = improvement at *
  have sum : doubleArithmetic.add (.finite current) (.finite improvement) =
      if 2 ^ (1024 : ℤ) ≤ FloatingFormat.double.round (current + improvement) then .posInfinity
      else .finite (FloatingFormat.double.round (current + improvement)) :=
    ofRational_of_nonneg (add_nonneg currentNonneg differenceNonneg)
  rw [sum]
  have sumAbove : current ≤ FloatingFormat.double.round (current + improvement) := isCurrent.holds.le_round (by linarith)
  split
  case isTrue overflow =>
    -- An infinite sum only leaves the absolute threshold, and the improvement is more than the share.
    have exceeds := higher (isGreater.small.trans_le overflow)
    have threshold : hImprovementThreshold doubleArithmetic config .posInfinity (.finite current) = config.hAbsEpsilon := rfl
    rw [threshold]
    simp only [above, exceeds, true_and, and_true]
    rfl
  case isFalse fits =>
    have isRebuilt : IsFiniteH (FloatingFormat.double.round (current + improvement)) :=
      ⟨FloatingFormat.holds_round (add_nonneg currentNonneg differenceNonneg), not_le.mp fits⟩
    rw [hImprovementThreshold_finite thresholds isRebuilt isCurrent, max_eq_left sumAbove]
    have compared := lt_max_finite thresholds.absolute
      (FloatingFormat.double.round (share * FloatingFormat.double.round (current + improvement))) improvement
    have less : doubleArithmetic.less = ExtendedNumber.lt := rfl
    rw [less, compared]
    simp [above]

/-- The best improvement is the one on the ancestor of the greatest h. -/
theorem bestImprovement_finite (isCurrent : IsFiniteH current) {compared : List S}
    (areFinite : ∀ ancestor ∈ compared, ∃ value, h ancestor = .finite value ∧ IsFiniteH value) {start : ℚ}
    (isStart : IsFiniteH start) :
    ∃ greatest, IsFiniteH greatest ∧ start ≤ greatest ∧ (greatest = start ∨ ∃ ancestor ∈ compared, h ancestor = .finite greatest) ∧
      (∀ ancestor ∈ compared, ∀ value, h ancestor = .finite value → value ≤ greatest) ∧
      bestImprovement doubleArithmetic h (.finite current) (.finite (difference start current)) compared =
        .finite (difference greatest current) := by
  induction compared generalizing start with
  | nil => exact ⟨start, isStart, le_rfl, .inl rfl, by simp, rfl⟩
  | cons ancestor compared inductionHypothesis =>
    obtain ⟨value, isValue, isFinite⟩ := areFinite ancestor (.head _)
    have differs : doubleArithmetic.sub (h ancestor) (.finite current) = .finite (difference value current) := by
      rw [isValue]
      exact sub_finite isFinite.holds isCurrent.holds isFinite.small isCurrent.small
    have better : doubleArithmetic.max (.finite (difference start current)) (.finite (difference value current)) =
        .finite (difference (max start value) current) := by
      rw [(difference_mono current).map_max]
      exact ExtendedNumber.max_finite _ _
    obtain ⟨greatest, isGreatest, above, attained, bounds, isBest⟩ := inductionHypothesis
      (fun other isOther => areFinite other (.tail _ isOther)) (isStart.max isFinite)
    refine ⟨greatest, isGreatest, (le_max_left _ _).trans above, ?_, ?_, ?_⟩
    · obtain isMax | ⟨other, isOther, isAttained⟩ := attained
      · cases max_choice start value with
        | inl isLeft => exact .inl (isMax.trans isLeft)
        | inr isRight => exact .inr ⟨ancestor, .head _, by rw [isValue, isMax, isRight]⟩
      · exact .inr ⟨other, .tail _ isOther, isAttained⟩
    · intro other isOther otherValue isOtherValue
      cases isOther with
      | head =>
        rw [isValue, ExtendedNumber.finite.injEq] at isOtherValue
        exact isOtherValue ▸ (le_max_right _ _).trans above
      | tail _ isOther => exact bounds other isOther otherValue isOtherValue
    · rw [bestImprovement, List.foldl_cons, differs, better]
      exact isBest

theorem bestImprovement_infinite {compared : List S}
    (areFinite : ∀ ancestor ∈ compared, ∃ value, h ancestor = .finite value ∧ IsFiniteH value) :
    bestImprovement doubleArithmetic h .posInfinity (doubleArithmetic.ofNat 0) compared = .finite 0 := by
  have isZero : doubleArithmetic.ofNat 0 = .finite 0 := by decide +kernel
  rw [isZero]
  induction compared with
  | nil => rfl
  | cons ancestor compared inductionHypothesis =>
    obtain ⟨value, isValue, _⟩ := areFinite ancestor (.head _)
    rw [bestImprovement, List.foldl_cons, isValue]
    exact inductionHypothesis fun other isOther => areFinite other (.tail _ isOther)

theorem meaningfullyImprovesH_self (thresholds : HasThresholds config share) (isCurrent : IsFiniteH current) :
    meaningfullyImprovesH doubleArithmetic config (.finite current) (.finite current) = false := by
  rw [Bool.eq_false_iff, Ne, meaningfullyImprovesH_iff thresholds isCurrent isCurrent, sub_self,
    FloatingFormat.round_zero, lt_finite_nonpos thresholds.absolute le_rfl]
  simp

/-- The best improvement on finite ancestors is stagnant if and only if none of them is improved on. -/
theorem bestImprovement_isStagnant_iff (thresholds : HasThresholds config share) {currentH : ExtendedNumber}
    (isCurrent : IsNonnegative currentH) {compared : List S}
    (areFinite : ∀ ancestor ∈ compared, ∃ value, h ancestor = .finite value ∧ IsFiniteH value) :
    ancestorImprovementIsStagnant doubleArithmetic config
        (bestImprovement doubleArithmetic h currentH (doubleArithmetic.ofNat 0) compared) currentH = true ↔
      ∀ ancestor ∈ compared, meaningfullyImprovesH doubleArithmetic config (h ancestor) currentH = false := by
  obtain rfl | ⟨current, rfl, holds, small⟩ := isCurrent
  · -- An infinite h improves on nothing.
    rw [bestImprovement_infinite areFinite]
    have absolute := lt_finite_nonpos thresholds.absolute le_rfl
    have stagnant : ancestorImprovementIsStagnant doubleArithmetic config (.finite 0) .posInfinity =
        !config.hAbsEpsilon.lt (.finite 0) := rfl
    rw [stagnant, absolute]
    refine iff_of_true rfl fun ancestor isAncestor => ?_
    obtain ⟨value, isValue, _⟩ := areFinite ancestor isAncestor
    have improves : meaningfullyImprovesH doubleArithmetic config (.finite value) .posInfinity =
        config.hAbsEpsilon.lt .negInfinity := rfl
    rw [isValue, improves]
    obtain isInfinite | ⟨bound, isBound, _⟩ := thresholds.absolute
    · rw [isInfinite]
      rfl
    · rw [isBound]
      rfl
  · have isCurrent : IsFiniteH current := ⟨holds, small⟩
    have isZero : doubleArithmetic.ofNat 0 = .finite (difference current current) := by
      rw [difference_self]
      decide +kernel
    obtain ⟨greatest, isGreatest, above, attained, bounds, isBest⟩ := bestImprovement_finite isCurrent areFinite isCurrent
    rw [isZero, isBest, ancestorImprovementIsStagnant_eq thresholds isGreatest isCurrent above, Bool.not_eq_true']
    constructor
    · intro notImproved ancestor isAncestor
      obtain ⟨value, isValue, isFinite⟩ := areFinite ancestor isAncestor
      rw [isValue, Bool.eq_false_iff]
      intro improves
      have improvesGreatest := meaningfullyImprovesH_mono thresholds isFinite isGreatest isCurrent
        (bounds ancestor isAncestor value isValue) improves
      rw [notImproved] at improvesGreatest
      exact Bool.false_ne_true improvesGreatest
    · intro notImproved
      obtain rfl | ⟨ancestor, isAncestor, isValue⟩ := attained
      · exact meaningfullyImprovesH_self thresholds isCurrent
      · rw [← isValue]
        exact notImproved ancestor isAncestor

/-- The check of the best improvement agrees with the checks of all compared ancestors. -/
theorem llmAncestorStagnant_iff (config : TriggerConfig ExtendedNumber) (ancestors : AncestorConfig)
    (parent : S → Option S) (h : S → ExtendedNumber) (node : S) (currentH : ExtendedNumber) {share : ℚ}
    (thresholds : HasThresholds config share) (nonnegative : ∀ state, IsNonnegative (h state))
    (currentNonnegative : IsNonnegative currentH) :
    llmAncestorStagnant doubleArithmetic config ancestors parent h node currentH = true ↔
      (nearestAncestors parent ancestors.traversalDepth (parent node)).length = ancestors.traversalDepth ∧
        ∀ ancestor ∈ nearestAncestors parent ancestors.ancestorDepth (parent node),
          h ancestor ≠ .posInfinity ∧ meaningfullyImprovesH doubleArithmetic config (h ancestor) currentH = false := by
  have isFiniteH : ∀ state, h state ≠ .posInfinity → ∃ value, h state = .finite value ∧ IsFiniteH value := by
    intro state finite
    obtain infinite | ⟨value, isValue, holds, small⟩ := nonnegative state
    · exact absurd infinite finite
    · exact ⟨value, isValue, holds, small⟩
  rw [llmAncestorStagnant_eq, forall₂_and]
  refine and_congr_right fun _ => and_congr_right fun finite => ?_
  exact bestImprovement_isStagnant_iff thresholds currentNonnegative fun ancestor isAncestor =>
    isFiniteH ancestor (finite ancestor isAncestor)

/-- A state with one ancestor. -/
def onlyParent : ℕ → Option ℕ
  | 1 => some 0
  | _ => none

def nearestOnly : AncestorConfig := ⟨1, le_rfl, 0⟩

theorem llmAncestorStagnant_iff_onlyParent :
    llmAncestorStagnant doubleArithmetic exampleConfig nearestOnly onlyParent (fun _ => .finite 3) 1 (.finite 2) = true ↔
      (nearestAncestors onlyParent nearestOnly.traversalDepth (onlyParent 1)).length = nearestOnly.traversalDepth ∧
        ∀ ancestor ∈ nearestAncestors onlyParent nearestOnly.ancestorDepth (onlyParent 1),
          ExtendedNumber.finite 3 ≠ .posInfinity ∧
            meaningfullyImprovesH doubleArithmetic exampleConfig (.finite 3) (.finite 2) = false := by
  have three : FloatingFormat.double.Holds 3 := ⟨3, 0, by decide, by decide, by norm_num⟩
  have two : FloatingFormat.double.Holds 2 := ⟨2, 0, by decide, by decide, by norm_num⟩
  have one : FloatingFormat.double.Holds 1 := ⟨1, 0, by decide, by decide, by norm_num⟩
  have share : FloatingFormat.double.Holds (1 / 128) := ⟨1, -7, by decide, by decide, by norm_num⟩
  have thresholds : HasThresholds exampleConfig (1 / 128) :=
    ⟨.inr ⟨1, rfl, one, by decide +kernel⟩, rfl, share, by norm_num⟩
  exact llmAncestorStagnant_iff exampleConfig nearestOnly onlyParent (fun _ => .finite 3) 1 (.finite 2) thresholds
    (fun _ => .inr ⟨3, rfl, three, by decide +kernel⟩) (.inr ⟨2, rfl, two, by decide +kernel⟩)

/-- With a share of three quarters, the sum is rounded to more than the h of the ancestor, and with it the threshold. -/
theorem llmAncestorStagnant_of_improvement :
    ∃ (config : TriggerConfig ExtendedNumber) (h : ℕ → ExtendedNumber) (currentH : ExtendedNumber),
      IsNonnegative config.hAbsEpsilon ∧ IsNonnegative config.hRelativeEpsilon ∧ (∀ state, IsNonnegative (h state)) ∧
      IsNonnegative currentH ∧
      llmAncestorStagnant doubleArithmetic config nearestOnly onlyParent h 1 currentH = true ∧
      onlyParent 1 = some 0 ∧ meaningfullyImprovesH doubleArithmetic config (h 0) currentH = true := by
  let config : TriggerConfig ExtendedNumber :=
    { exampleConfig with
      hAbsEpsilon := .finite 0
      hRelativeEpsilon := .finite (3 / 4) }
  have share : FloatingFormat.double.Holds (3 / 4) := ⟨3, -2, by decide, by decide, by norm_num⟩
  have ancestor : FloatingFormat.double.Holds (3 / 2 + 1 / 2 ^ 52) :=
    ⟨3 * 2 ^ 51 + 1, -52, by decide, by decide, by norm_num⟩
  have current : FloatingFormat.double.Holds (3 / 8 - 1 / 2 ^ 53) :=
    ⟨3 * 2 ^ 50 - 1, -53, by decide, by decide, by norm_num⟩
  refine ⟨config, fun _ => .finite (3 / 2 + 1 / 2 ^ 52), .finite (3 / 8 - 1 / 2 ^ 53),
    .inr ⟨0, rfl, FloatingFormat.holds_zero, by decide +kernel⟩, .inr ⟨_, rfl, share, by decide +kernel⟩,
    fun _ => .inr ⟨_, rfl, ancestor, by decide +kernel⟩, .inr ⟨_, rfl, current, by decide +kernel⟩, ?_, rfl, ?_⟩
  · decide +kernel
  · decide +kernel

end Doubles

end CutPlan.Search
