import CutPlan.Landmarks.ComputeLandmarks
import CutPlan.Landmarks.CutClosure
import CutPlan.Landmarks.HMax

/-! # The cost partition

Each cut charges the copies of an original operator with the same multiplicity, and never with more than
what is left of its cost.
-/

namespace CutPlan.Landmarks

open CutPlan.Lib Exploration

/-! ## Charging one cut -/

section Charging

variable {task : RelaxedTask} {costs : task.Op → ℚ} {cut : List (task.Op × ℚ)} {index : task.Op}

/-- The least element of a mapped list. -/
theorem min_map_le {entries : List (task.Op × ℚ)} {least : ℚ}
    (isLeast : (entries.map (CutSearch.edgeCost costs)).min? = some least)
    {entry : task.Op × ℚ} (member : entry ∈ entries) : least ≤ CutSearch.edgeCost costs entry :=
  (List.le_min?_iff isLeast).mp (le_refl least) _ (List.mem_map_of_mem member)

theorem cutCost_le_operatorToMinCutCost {cost minCutCost : ℚ} {opId : ℕ}
    (isCost : cutCost costs cut = some cost)
    (isMin : operatorToMinCutCost costs cut opId = some minCutCost) : cost ≤ minCutCost := by
  obtain ⟨entry, member, rfl⟩ := CutSearch.exists_of_min isMin
  exact min_map_le isCost (List.mem_of_mem_filter member)

theorem chargedMultiplicity_eq_some {m : ℚ} :
    chargedMultiplicity costs cut index = some m ↔
      ∃ opId minCutCost, (task.op index).originalOpId = some opId ∧
        operatorToMinCutCost costs cut opId = some minCutCost ∧
        task.options.precision ≤ minCutCost ∧ task.options.precision ≤ costs index ∧
        m = minCutCost / costs index := by
  unfold chargedMultiplicity
  simp only [Option.bind_eq_bind, Option.bind_eq_some_iff]
  constructor
  · rintro ⟨opId, isOp, minCutCost, isMin, charged⟩
    split at charged
    · cases charged
    · rename_i notSmall
      rw [not_or, not_lt, not_lt] at notSmall
      cases charged
      exact ⟨opId, minCutCost, isOp, isMin, notSmall.1, notSmall.2, rfl⟩
  · rintro ⟨opId, minCutCost, isOp, isMin, large, costly, rfl⟩
    refine ⟨opId, isOp, minCutCost, isMin, ?_⟩
    rw [if_neg (not_or.mpr ⟨not_lt.mpr large, not_lt.mpr costly⟩)]

/-- Copies with the same cost are charged alike. -/
theorem chargedMultiplicity_congr {other : task.Op}
    (sameOp : (task.op index).originalOpId = (task.op other).originalOpId)
    (sameCost : costs index = costs other) :
    chargedMultiplicity costs cut index = chargedMultiplicity costs cut other := by
  unfold chargedMultiplicity
  rw [sameOp, sameCost]

/-- The charge is at most the cost of the operator. -/
theorem charge_bounds {cost m : ℚ} (isCost : cutCost costs cut = some cost) (costNonneg : 0 ≤ cost)
    (nonneg : 0 ≤ costs index) (charged : chargedMultiplicity costs cut index = some m) :
    0 ≤ cost / m ∧ cost / m ≤ costs index := by
  obtain ⟨opId, minCutCost, -, isMin, large, -, rfl⟩ := chargedMultiplicity_eq_some.mp charged
  have le := cutCost_le_operatorToMinCutCost isCost isMin
  have minNonneg := task.options.precision_nonneg.trans large
  refine ⟨div_nonneg costNonneg (div_nonneg minNonneg nonneg), ?_⟩
  rw [div_div_eq_mul_div]
  cases minNonneg.eq_or_lt with
  | inl zero => rw [← zero, div_zero]; exact nonneg
  | inr positive =>
    rw [div_le_iff₀ positive, mul_comm]
    exact mul_le_mul_of_nonneg_left le nonneg

/-- What is left of the cost, with the charge, is at most the cost before. -/
theorem reducedCost_bounds {cost : ℚ} (isCost : cutCost costs cut = some cost)
    (costNonneg : 0 ≤ cost) (nonneg : 0 ≤ costs index) :
    0 ≤ reducedCost costs cut cost index ∧ reducedCost costs cut cost index ≤ costs index ∧
      ∀ m, chargedMultiplicity costs cut index = some m →
        cost / m + reducedCost costs cut cost index ≤ costs index := by
  unfold reducedCost
  cases charged : chargedMultiplicity costs cut index with
  | none => exact ⟨nonneg, le_refl _, by simp⟩
  | some m =>
    obtain ⟨chargeNonneg, chargeLe⟩ := charge_bounds isCost costNonneg nonneg charged
    simp only [Option.some.injEq, forall_eq']
    split
    · exact ⟨le_refl 0, nonneg, by linarith⟩
    · exact ⟨by linarith, by linarith, by linarith⟩

end Charging

/-! ## The loop -/

namespace LandmarkLoop

variable {task : RelaxedTask} {env : Environment}

/-- What the landmarks have charged an original operator with. -/
def charged (landmarks : List (List (ℚ × ℕ) × ℚ)) (opId : ℕ) : ℚ :=
  (landmarks.map fun entry =>
    ((entry.1.filter fun multiplicity => multiplicity.2 = opId).map fun multiplicity =>
      entry.2 / multiplicity.1).sum).sum

/-- The costs are legal: copies of an operator agree, no cost is negative or above the base cost, and
the charges of an operator add up to at most its base cost. -/
structure Legal (loop : LandmarkLoop task env) : Prop where
  copies : ∀ index other : task.Op,
    (task.op index).originalOpId = (task.op other).originalOpId → loop.costs index = loop.costs other
  nonneg : ∀ index, 0 ≤ loop.costs index
  le_base : ∀ index, loop.costs index ≤ task.baseCost index
  partition : ∀ opId, charged loop.landmarks opId ≤ task.opBaseCost opId

/-- The invariant behind the partition: what is left of a cost is not charged. -/
structure Accounted (loop : LandmarkLoop task env) : Prop extends Legal loop where
  rest : ∀ index opId, (task.op index).originalOpId = some opId →
    charged loop.landmarks opId + loop.costs index ≤ task.opBaseCost opId

theorem start_accounted (draws : ℕ) : Accounted (start task env draws) where
  copies := by
    intro index other same
    simp only [start, RelaxedTask.baseCost, same]
  nonneg := fun index => task.baseCost_nonneg index
  le_base := fun index => le_refl _
  partition := fun opId => by simpa [charged, start] using task.opBaseCost_nonneg opId
  rest := by
    intro index opId isOp
    have isBase : (start task env draws).costs index = task.opBaseCost opId := by
      simp only [start]
      rw [RelaxedTask.baseCost, isOp]
      rfl
    rw [isBase]
    simp [charged, start]

variable {loop after : LandmarkLoop task env}

theorem cutCost_nonneg (nonneg : ∀ index, 0 ≤ loop.costs index) {cost : ℚ}
    (isCost : cutCost loop.costs loop.cut = some cost) : 0 ≤ cost := by
  obtain ⟨entry, member, rfl⟩ := CutSearch.exists_of_min isCost
  obtain ⟨-, -, -, effect, -, -, -, multiplicity⟩ :=
    (secondExploration_isCut loop.costs loop.exploration).entries entry member
  exact mul_nonneg (task.options.precision_nonneg.trans (cutMultiplicity_eq_some.mp multiplicity).2)
    (nonneg _)

theorem reduced_bounds (nonneg : ∀ index, 0 ≤ loop.costs index) {cost : ℚ}
    (isCost : cutCost loop.costs loop.cut = some cost) (index : task.Op) :
    0 ≤ loop.reduced cost index ∧ loop.reduced cost index ≤ loop.costs index := by
  obtain ⟨reducedNonneg, le, -⟩ := reducedCost_bounds isCost (cutCost_nonneg nonneg isCost) (nonneg index)
  exact ⟨reducedNonneg, le⟩

/-- Only copies of the operators in the cut become cheaper. -/
theorem reduced_of_not_mem_requeued (cost : ℚ) {index : task.Op}
    (other : index ∉ requeued (loop.cut.map Prod.fst)) :
    loop.reduced cost index = loop.costs index := by
  unfold reduced reducedCost
  cases isCharged : chargedMultiplicity loop.costs loop.cut index with
  | none => rfl
  | some m =>
    obtain ⟨opId, minCutCost, isOp, isMin, -⟩ := chargedMultiplicity_eq_some.mp isCharged
    obtain ⟨entry, member, -⟩ := CutSearch.exists_of_min isMin
    obtain ⟨inCut, isEntry⟩ := List.mem_filter.mp member
    refine absurd (List.mem_flatMap.mpr ⟨entry.1, List.mem_map_of_mem inCut, ?_⟩) other
    rw [of_decide_eq_true isEntry]
    simpa [originalToRelaxedOperators] using isOp

/-- A landmark charges an operator at most once. -/
theorem charged_landmark (costs : task.Op → ℚ) (cut : List (task.Op × ℚ)) (cost : ℚ) (opId : ℕ) :
    charged [(landmark costs cut, cost)] opId = 0 ∨
      ∃ m, operatorToM costs cut opId = some m ∧
        charged [(landmark costs cut, cost)] opId = cost / m := by
  have distinct := List.nodup_dedup (cut.filterMap fun entry => (task.op entry.1).originalOpId)
  unfold charged landmark
  simp only [List.map_cons, List.map_nil, List.sum_cons, List.sum_nil, add_zero]
  generalize (cut.filterMap fun entry => (task.op entry.1).originalOpId).dedup = opIds at distinct
  induction opIds with
  | nil => exact .inl rfl
  | cons head opIds inductionHypothesis =>
    rw [List.nodup_cons] at distinct
    cases isM : operatorToM costs cut head with
    | none =>
      rw [List.filterMap_cons_none (by simp [isM])]
      exact inductionHypothesis distinct.2
    | some m =>
      rw [List.filterMap_cons_some (by rw [isM]; rfl)]
      by_cases own : head = opId
      · subst own
        refine .inr ⟨m, isM, ?_⟩
        rw [List.filter_cons_of_pos (by simp), List.map_cons, List.sum_cons, List.filter_eq_nil_iff.mpr]
        · simp
        · intro multiplicity member
          obtain ⟨other, isOther, isEntry⟩ := List.mem_filterMap.mp member
          obtain ⟨_, _, rfl⟩ := Option.map_eq_some_iff.mp isEntry
          simp only [decide_eq_true_eq]
          rintro rfl
          exact distinct.1 isOther
      · rw [List.filter_cons_of_neg (by simpa using own)]
        exact inductionHypothesis distinct.2

theorem exists_charged_of_operatorToM {costs : task.Op → ℚ} {cut : List (task.Op × ℚ)} {opId : ℕ}
    {m : ℚ} (isM : operatorToM costs cut opId = some m) :
    ∃ index, (task.op index).originalOpId = some opId ∧
      chargedMultiplicity costs cut index = some m := by
  obtain ⟨index, member, charged⟩ := List.mem_filterMap.mp (List.mem_of_getLast? isM)
  refine ⟨index, ?_, charged⟩
  simpa [originalToRelaxedOperators] using member

theorem charged_append (first second : List (List (ℚ × ℕ) × ℚ)) (opId : ℕ) :
    charged (first ++ second) opId = charged first opId + charged second opId := by
  simp [charged]

theorem Accounted.next (accounted : Accounted loop) (isNext : loop.next = some after) :
    Accounted after := by
  obtain ⟨cost, -, isCost, -, costs, landmarks⟩ := next_eq_some isNext
  have costNonneg := cutCost_nonneg accounted.nonneg isCost
  have bounds := fun index => reducedCost_bounds isCost costNonneg (accounted.nonneg index)
  -- all copies of an operator are charged with the multiplicity that the landmark has
  have rest : ∀ index opId, (task.op index).originalOpId = some opId →
      charged after.landmarks opId + after.costs index ≤ task.opBaseCost opId := by
    intro index opId isOp
    have before := accounted.rest index opId isOp
    rw [landmarks, costs, charged_append]
    unfold reduced
    rcases charged_landmark loop.costs loop.cut cost opId with none | ⟨m, isM, some⟩
    · rw [none]
      linarith [(bounds index).2.1]
    · obtain ⟨copy, isCopy, chargedCopy⟩ := exists_charged_of_operatorToM isM
      have sameOp := isCopy.trans isOp.symm
      have chargedIndex : chargedMultiplicity loop.costs loop.cut index = .some m :=
        (chargedMultiplicity_congr sameOp (accounted.copies copy index sameOp)) ▸ chargedCopy
      rw [some]
      linarith [(bounds index).2.2 m chargedIndex]
  refine ⟨⟨?_, ?_, ?_, ?_⟩, rest⟩
  · intro index other same
    rw [costs]
    unfold reduced reducedCost
    have sameCost := accounted.copies index other same
    rw [chargedMultiplicity_congr same sameCost, sameCost]
  · intro index
    rw [costs]
    exact (bounds index).1
  · intro index
    rw [costs]
    exact (bounds index).2.1.trans (accounted.le_base index)
  · intro opId
    rcases charged_landmark loop.costs loop.cut cost opId with none | ⟨m, isM, some⟩
    · rw [landmarks, charged_append, none, add_zero]
      exact accounted.partition opId
    · obtain ⟨copy, isCopy, -⟩ := exists_charged_of_operatorToM isM
      have nonneg : 0 ≤ after.costs copy := by
        rw [costs]
        exact (bounds copy).1
      linarith [rest copy opId isCopy]

theorem reached_accounted {draws : ℕ} (reached : Reached draws loop) : Accounted loop := by
  induction reached with
  | start => exact start_accounted draws
  | next _ _ isNext inductionHypothesis => exact inductionHypothesis.next isNext

/-- In every iteration the costs are a legal partition. -/
theorem cost_partition_legal {draws : ℕ} (reached : Reached draws loop) : Legal loop :=
  (reached_accounted reached).toLegal

theorem refill_partition_legal :
    ∃ after, (start (refillTask 5) defaultEnvironment 0).next = some after ∧ Legal after := by
  obtain ⟨after, isNext⟩ : ∃ after, (start (refillTask 5) defaultEnvironment 0).next = some after :=
    Option.isSome_iff_exists.mp (by decide +kernel)
  have continues : (start (refillTask 5) defaultEnvironment 0).Continues :=
    ⟨1 / 2, by decide +kernel, by decide +kernel⟩
  exact ⟨after, isNext, cost_partition_legal (.next .start continues isNext)⟩

end LandmarkLoop

end CutPlan.Landmarks
