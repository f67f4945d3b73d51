import CutPlan.Translate.DisjunctiveNormalForm

/-! # Existential quantifiers in conditions of effects

Existential quantifiers are pulled out of conjunctions and become parameters of the effect.  What remains is a
conjunction of tests, which holds in as many ways as before, counted over the objects for the new parameters.
-/

namespace CutPlan.Translate.Pddl

namespace Condition

theorem recurseExistentialsEach_eq (parts : List Condition) :
    recurseExistentialsEach parts = parts.map recurseExistentials := by
  induction parts with
  | nil => rfl
  | cons part parts inductionHypothesis => rw [recurseExistentialsEach, inductionHypothesis, List.map_cons]

/-- All quantifiers of a condition in front, or a condition without any. -/
structure Moved (condition result : Condition) : Prop where
  ways : ∀ world mapping, result.ways world mapping = condition.ways world mapping
  within : Within condition result
  tidy : Tidy result
  solid : Solid result
  shape : (result = condition ∧ Bare condition) ∨
    ∃ parameters part, result = .existential parameters part ∧ Bare part

theorem agree_of_mem_assignments {objectsByType : String → List String} {parameters : List TypedObject}
    {mapping other : Mapping} (isAssignment : other ∈ assignments objectsByType parameters mapping) {names : List String}
    (notNames : (parameters.map TypedObject.name).Disjoint names) : ∀ name ∈ names, other name = mapping name := by
  intro name isName
  obtain ⟨tuple, _, rfl⟩ := List.mem_map.mp isAssignment
  exact assign_of_notMem (fun isParameter => notNames isParameter isName) mapping tuple

/-- Quantifiers may be pulled out of a product whose other factors do not depend on them. -/
theorem ways_pull {world : World} {moved : List (List TypedObject × Condition)} {others : Mapping → ℕ}
    {names : List String}
    (depends : ∀ mapping other : Mapping, (∀ name ∈ names, mapping name = other name) → others mapping = others other)
    (fresh : ∀ part ∈ moved, (part.1.map TypedObject.name).Disjoint names)
    (separate : moved.Pairwise fun first second =>
      Separate (.existential first.1 first.2) (.existential second.1 second.2)) (mapping : Mapping) :
    others mapping * (moved.map fun part => Condition.ways world mapping (.existential part.1 part.2)).prod =
      ((assignments world.objectsByType (moved.flatMap (·.1)) mapping).map fun mapping =>
        others mapping * (moved.map fun part => part.2.ways world mapping).prod).sum := by
  induction moved generalizing others names mapping with
  | nil => simp
  | cons part moved inductionHypothesis =>
    obtain ⟨headSeparate, restSeparate⟩ := List.pairwise_cons.mp separate
    rw [List.forall_mem_cons] at fresh
    -- The factor of the first part joins the others for the rest.
    have dependsBoth : ∀ mapping other : Mapping, (∀ name ∈ names ++ part.2.names, mapping name = other name) →
        others mapping * part.2.ways world mapping = others other * part.2.ways world other := by
      intro mapping other agree
      rw [depends mapping other fun name isName => agree name (List.mem_append_left _ isName),
        Condition.ways_congr fun name isName => agree name (List.mem_append_right _ isName)]
    have freshBoth : ∀ other ∈ moved, (other.1.map TypedObject.name).Disjoint (names ++ part.2.names) := by
      intro other isOther
      rw [List.disjoint_append_right]
      refine ⟨fresh.2 other isOther, fun name isParameter isName => ?_⟩
      exact (headSeparate other isOther).2 (List.mem_append_left _ isParameter) (List.mem_append_right _ isName)
    have inner : ∀ other ∈ assignments world.objectsByType part.1 mapping,
        ((assignments world.objectsByType (moved.flatMap (·.1)) other).map fun mapping =>
          others mapping * (part.2.ways world mapping * (moved.map fun part => part.2.ways world mapping).prod)).sum =
          others mapping * (moved.map fun part => Condition.ways world mapping (.existential part.1 part.2)).prod *
            part.2.ways world other := by
      intro other isOther
      have pulled := inductionHypothesis dependsBoth freshBoth restSeparate other
      have sameRest : (moved.map fun part => Condition.ways world other (.existential part.1 part.2)) =
          moved.map fun part => Condition.ways world mapping (.existential part.1 part.2) := by
        apply List.map_congr_left
        intro later isLater
        apply Condition.ways_congr
        apply agree_of_mem_assignments isOther
        intro name isParameter isName
        exact (headSeparate later isLater).1 (List.mem_append_left _ isParameter) isName
      rw [sameRest, depends other mapping (agree_of_mem_assignments isOther fresh.1)] at pulled
      simp only [mul_assoc] at pulled ⊢
      rw [← pulled]
      ring
    calc others mapping * ((part :: moved).map fun part =>
            Condition.ways world mapping (.existential part.1 part.2)).prod
        = others mapping * (moved.map fun part => Condition.ways world mapping (.existential part.1 part.2)).prod *
            ((assignments world.objectsByType part.1 mapping).map fun mapping => part.2.ways world mapping).sum := by
          rw [List.map_cons, List.prod_cons, ways_existential]
          ring
      _ = ((assignments world.objectsByType part.1 mapping).map fun other =>
            ((assignments world.objectsByType (moved.flatMap (·.1)) other).map fun mapping =>
              others mapping * (part.2.ways world mapping *
                (moved.map fun part => part.2.ways world mapping).prod)).sum).sum := by
          rw [List.map_congr_left inner, List.sum_map_mul_left]
      _ = ((assignments world.objectsByType ((part :: moved).flatMap (·.1)) mapping).map fun mapping =>
            others mapping * ((part :: moved).map fun part => part.2.ways world mapping).prod).sum := by
          rw [List.flatMap_cons, ((assignments_append _ _ _).map _).sum_eq, List.map_flatMap, sum_flatMap]
          simp only [List.map_cons, List.prod_cons]

/-- The parts that stay as they are, and those that become quantified conditions. -/
structure MovedParts (parts kept : List Condition) (moved : List (Condition × List TypedObject × Condition)) : Prop where
  perm : (kept ++ moved.map (·.1)).Perm parts
  filtered : (parts.map recurseExistentials).filter (fun part => part.existentialPart.isNone) = kept
  pulled : (parts.map recurseExistentials).filterMap existentialPart = moved.map (·.2)
  keptBare : ∀ part ∈ kept, Bare part
  movedParts : ∀ part ∈ moved, part.1.recurseExistentials = .existential part.2.1 part.2.2 ∧ Bare part.2.2

theorem existentialPart_of_bare {condition : Condition} (bare : Bare condition) :
    condition.existentialPart = none := by
  cases condition with
  | existential _ _ => cases bare.2
  | truth | falsity | test _ _ | conjunction _ | disjunction _ => rfl

theorem exists_movedParts {parts : List Condition} (areMoved : ∀ part ∈ parts, Moved part part.recurseExistentials) :
    ∃ kept moved, MovedParts parts kept moved := by
  induction parts with
  | nil => exact ⟨[], [], .nil, rfl, rfl, by simp, by simp⟩
  | cons part parts inductionHypothesis =>
    rw [List.forall_mem_cons] at areMoved
    obtain ⟨kept, moved, isMoved⟩ := inductionHypothesis areMoved.2
    obtain ⟨unchanged, bare⟩ | ⟨parameters, inner, isExistential, bare⟩ := areMoved.1.shape
    · have none : part.recurseExistentials.existentialPart = none := unchanged.symm ▸ existentialPart_of_bare bare
      refine ⟨part :: kept, moved, isMoved.perm.cons part, ?_, ?_, List.forall_mem_cons.mpr ⟨bare, isMoved.keptBare⟩,
        isMoved.movedParts⟩
      · rw [List.map_cons, List.filter_cons_of_pos (by simp [none]), isMoved.filtered, unchanged]
      · rw [List.map_cons, List.filterMap_cons_none none, isMoved.pulled]
    · refine ⟨kept, (part, parameters, inner) :: moved, ?_, ?_, ?_, isMoved.keptBare,
        List.forall_mem_cons.mpr ⟨⟨isExistential, bare⟩, isMoved.movedParts⟩⟩
      · exact List.perm_middle.trans (isMoved.perm.cons part)
      · rw [List.map_cons, List.filter_cons_of_neg (by simp [isExistential, existentialPart]), isMoved.filtered]
      · rw [List.map_cons, List.filterMap_cons_some (by rw [isExistential]; rfl), isMoved.pulled, List.map_cons]

theorem within_existentialPart (parameters : List TypedObject) {part : Condition} (apart : Apart part) :
    Within (.existential parameters part) part :=
  ⟨List.subset_append_right _ _, List.subset_append_right _ _, apart⟩

/-- The quantified condition that a part becomes. -/
def quantified (part : Condition × List TypedObject × Condition) : Condition := .existential part.2.1 part.2.2

section MovedParts

variable {parts kept : List Condition} {moved : List (Condition × List TypedObject × Condition)}

theorem MovedParts.mem_kept (isMoved : MovedParts parts kept moved) {part : Condition} (isKept : part ∈ kept) :
    part ∈ parts :=
  isMoved.perm.mem_iff.mp (List.mem_append_left _ isKept)

theorem MovedParts.mem_source (isMoved : MovedParts parts kept moved) {part : Condition × List TypedObject × Condition}
    (isPart : part ∈ moved) : part.1 ∈ parts :=
  isMoved.perm.mem_iff.mp (List.mem_append_right _ (List.mem_map_of_mem isPart))

theorem MovedParts.of_moved (isMoved : MovedParts parts kept moved)
    (areMoved : ∀ part ∈ parts, Moved part part.recurseExistentials) :
    ∀ part ∈ moved, Moved part.1 (quantified part) := by
  intro part isPart
  have ofPart := areMoved part.1 (isMoved.mem_source isPart)
  rwa [(isMoved.movedParts part isPart).1] at ofPart

theorem Moved.tidy_solid {part : Condition × List TypedObject × Condition} (isMoved : Moved part.1 (quantified part)) :
    Tidy part.2.2 ∧ Solid part.2.2 ∧ Apart part.2.2 := by
  obtain ⟨_, ⟨_, _, apart⟩, tidy, _, _⟩ := isMoved
  cases tidy with
  | existential tidy solid =>
    cases apart with
    | existential apart => exact ⟨tidy, solid, apart⟩

theorem MovedParts.separate (isMoved : MovedParts parts kept moved) (apart : Apart (.conjunction parts))
    (ofMoved : ∀ part ∈ moved, Moved part.1 (quantified part)) : (kept ++ moved.map quantified).Pairwise Separate := by
  cases apart with
  | conjunction apart separate =>
    have separateParts : (kept ++ moved.map (·.1)).Pairwise Separate :=
      isMoved.perm.symm.pairwise separate fun separate => separate.symm
    rw [List.pairwise_append, List.pairwise_map] at separateParts ⊢
    obtain ⟨keptSeparate, movedSeparate, between⟩ := separateParts
    refine ⟨keptSeparate, movedSeparate.imp_of_mem fun {first second} isFirst isSecond separate => ?_, ?_⟩
    · exact separate.mono (ofMoved first isFirst).within (ofMoved second isSecond).within
    · intro part isPart
      rw [List.forall_mem_map]
      intro other isOther
      exact (between part isPart other.1 (List.mem_map_of_mem isOther)).mono
        (Within.refl (apart part (isMoved.mem_kept isPart))) (ofMoved other isOther).within

theorem MovedParts.within (isMoved : MovedParts parts kept moved) (apart : Apart (.conjunction parts))
    (ofMoved : ∀ part ∈ moved, Moved part.1 (quantified part)) :
    ∀ part ∈ kept ++ moved.map quantified, Within (.conjunction parts) part := by
  rw [List.forall_mem_append, List.forall_mem_map]
  refine ⟨fun part isPart => within_conjunctionPart apart (isMoved.mem_kept isPart), fun part isPart => ?_⟩
  exact (within_conjunctionPart apart (isMoved.mem_source isPart)).trans (ofMoved part isPart).within

/-- The conjunction under the quantifiers that are pulled out. -/
theorem MovedParts.within_body (isMoved : MovedParts parts kept moved) (apart : Apart (.conjunction parts))
    (ofMoved : ∀ part ∈ moved, Moved part.1 (quantified part)) :
    Within (.conjunction parts) (.conjunction (kept ++ moved.map (·.2.2))) := by
  have separate := isMoved.separate apart ofMoved
  have within := isMoved.within apart ofMoved
  have withinQuantified : ∀ part ∈ moved, Within (quantified part) part.2.2 := fun part isPart =>
    within_existentialPart _ (ofMoved part isPart).tidy_solid.2.2
  rw [List.forall_mem_append, List.forall_mem_map] at within
  rw [List.pairwise_append, List.pairwise_map] at separate
  obtain ⟨keptSeparate, movedSeparate, between⟩ := separate
  refine Within.conjunction ?_ ?_
  · rw [List.forall_mem_append, List.forall_mem_map]
    exact ⟨within.1, fun part isPart => (within.2 part isPart).trans (withinQuantified part isPart)⟩
  · rw [List.pairwise_append, List.pairwise_map]
    refine ⟨keptSeparate, movedSeparate.imp_of_mem fun {first second} isFirst isSecond separate => ?_, ?_⟩
    · exact separate.mono (withinQuantified first isFirst) (withinQuantified second isSecond)
    · intro part isPart
      rw [List.forall_mem_map]
      intro other isOther
      exact (between part isPart _ (List.mem_map_of_mem isOther)).mono (Within.refl (within.1 part isPart).apart)
        (withinQuantified other isOther)

theorem MovedParts.ways (isMoved : MovedParts parts kept moved) (apart : Apart (.conjunction parts))
    (ofMoved : ∀ part ∈ moved, Moved part.1 (quantified part)) (world : World) (mapping : Mapping) :
    Condition.ways world mapping
        (.existential (moved.flatMap (·.2.1)) (.conjunction (kept ++ moved.map (·.2.2)))) =
      Condition.ways world mapping (.conjunction parts) := by
  have separate := isMoved.separate apart ofMoved
  rw [List.pairwise_append, List.pairwise_map] at separate
  obtain ⟨_, movedSeparate, between⟩ := separate
  have depends : ∀ mapping other : Mapping, (∀ name ∈ namesOfEach kept, mapping name = other name) →
      (kept.map (Condition.ways world mapping)).prod = (kept.map (Condition.ways world other)).prod := by
    intro mapping other agree
    apply congrArg List.prod
    apply List.map_congr_left
    intro part isPart
    exact Condition.ways_congr fun name isName => agree name (mem_namesOfEach.mpr ⟨part, isPart, isName⟩)
  have fresh : ∀ part ∈ moved.map (·.2), (part.1.map TypedObject.name).Disjoint (namesOfEach kept) := by
    rw [List.forall_mem_map]
    intro part isPart name isParameter isName
    obtain ⟨other, isOther, isName⟩ := mem_namesOfEach.mp isName
    exact (between other isOther _ (List.mem_map_of_mem isPart)).2 (List.mem_append_left _ isParameter) isName
  have pulled := @ways_pull world _ _ _ depends fresh (List.pairwise_map.mpr movedSeparate) mapping
  have sameWays : ((moved.map (·.2)).map fun part => Condition.ways world mapping (.existential part.1 part.2)) =
      (moved.map (·.1)).map (Condition.ways world mapping) := by
    rw [List.map_map, List.map_map]
    exact List.map_congr_left fun part isPart => (ofMoved part isPart).ways world mapping
  rw [sameWays, ← List.prod_append, ← List.map_append, (isMoved.perm.map _).prod_eq, List.flatMap_map] at pulled
  rw [ways_existential, ways_conjunction, pulled]
  simp only [ways_conjunction, List.map_append, List.prod_append, List.map_map, Function.comp_def]

theorem moved_conjunction (simple : Simple (.conjunction parts)) (apart : Apart (.conjunction parts))
    (noDisjunction : ∀ part ∈ parts, part.hasDisjunction = false)
    (areMoved : ∀ part ∈ parts, Moved part part.recurseExistentials) :
    Moved (.conjunction parts) (Condition.recurseExistentials (.conjunction parts)) := by
  obtain ⟨kept, moved, isMoved⟩ := exists_movedParts areMoved
  have simpleParts : ∀ part ∈ parts, Simple part := by
    cases simple with
    | conjunction _ simple _ => exact simple
  have ofMoved := isMoved.of_moved areMoved
  rw [recurseExistentials, recurseExistentialsEach_eq]
  simp only [pullExistentials, isMoved.filtered, isMoved.pulled]
  split
  case isTrue noneMoved =>
    rw [List.map_eq_nil_iff] at noneMoved
    subst noneMoved
    have isKept : ∀ part ∈ parts, part ∈ kept := fun part isPart => by
      simpa using isMoved.perm.mem_iff.mpr isPart
    refine ⟨fun _ _ => rfl, Within.refl apart, simple.tidy_solid.1, simple.tidy_solid.2, .inl ⟨rfl, ?_, ?_⟩⟩
    · exact noDisjunction_conjunction.mpr noDisjunction
    · exact noExistential_conjunction.mpr fun part isPart => (isMoved.keptBare part (isKept part isPart)).2
  case isFalse someMoved =>
    rw [List.map_eq_nil_iff] at someMoved
    obtain ⟨first, isFirst⟩ := List.exists_mem_of_ne_nil moved someMoved
    have body := isMoved.within_body apart ofMoved
    have within := isMoved.within apart ofMoved
    simp only [List.map_map, List.flatMap_map, Function.comp_def]
    have bodySolid : Solid (.conjunction (kept ++ moved.map (·.2.2))) :=
      .conjunction (List.mem_append_right _ (List.mem_map_of_mem isFirst)) (ofMoved first isFirst).tidy_solid.2.1
    have bodyTidy : Tidy (.conjunction (kept ++ moved.map (·.2.2))) := by
      refine .conjunction ?_
      rw [List.forall_mem_append, List.forall_mem_map]
      exact ⟨fun part isPart => (simpleParts part (isMoved.mem_kept isPart)).tidy_solid.1,
        fun part isPart => (ofMoved part isPart).tidy_solid.1⟩
    have bodyBare : Bare (.conjunction (kept ++ moved.map (·.2.2))) := by
      rw [Bare, noDisjunction_conjunction, noExistential_conjunction, ← forall₂_and, List.forall_mem_append,
        List.forall_mem_map]
      exact ⟨isMoved.keptBare, fun part isPart => (isMoved.movedParts part isPart).2⟩
    have parameters : ∀ name ∈ (moved.flatMap (·.2.1)).map TypedObject.name, ∃ part ∈ moved,
        name ∈ (quantified part).names ∧ name ∈ (quantified part).binders := by
      intro name isName
      obtain ⟨parameter, isParameter, rfl⟩ := List.mem_map.mp isName
      obtain ⟨part, isPart, isParameter⟩ := List.mem_flatMap.mp isParameter
      have isName := List.mem_map_of_mem (f := TypedObject.name) isParameter
      exact ⟨part, isPart, List.mem_append_left _ isName, List.mem_append_left _ isName⟩
    refine ⟨isMoved.ways apart ofMoved, ⟨?_, ?_, .existential body.apart⟩, .existential bodyTidy bodySolid,
      .existential bodySolid, .inr ⟨_, _, rfl, bodyBare⟩⟩
    · refine List.append_subset.mpr ⟨fun name isName => ?_, body.names⟩
      obtain ⟨part, isPart, isName, _⟩ := parameters name isName
      exact (within _ (List.mem_append_right _ (List.mem_map_of_mem isPart))).names isName
    · refine List.append_subset.mpr ⟨fun name isName => ?_, body.binders⟩
      obtain ⟨part, isPart, _, isName⟩ := parameters name isName
      exact (within _ (List.mem_append_right _ (List.mem_map_of_mem isPart))).binders isName

end MovedParts

theorem moved_existential {parameters : List TypedObject} {part : Condition} (apart : Apart part)
    (simple : Simple part) (isMoved : Moved part part.recurseExistentials) :
    Moved (.existential parameters part) (Condition.recurseExistentials (.existential parameters part)) := by
  rw [recurseExistentials]
  obtain ⟨unchanged, bare⟩ | ⟨added, inner, isExistential, bare⟩ := isMoved.shape
  · have noneMoved : [part.recurseExistentials].filterMap existentialPart = [] := by
      simp [unchanged, existentialPart_of_bare bare]
    simp only [pullExistentials, noneMoved]
    exact ⟨fun _ _ => rfl, Within.refl (.existential apart), .existential simple.tidy_solid.1 simple.tidy_solid.2,
      .existential simple.tidy_solid.2, .inr ⟨_, _, rfl, bare⟩⟩
  · rw [isExistential] at isMoved
    have someMoved : [part.recurseExistentials].filterMap existentialPart = [(added, inner)] := by
      simp [isExistential, existentialPart]
    obtain ⟨tidy, solid, innerApart⟩ := @Moved.tidy_solid (part, added, inner) isMoved
    simp only [pullExistentials, someMoved]
    rw [if_neg (by simp)]
    have withinPart := isMoved.within.existential parameters
    refine ⟨fun world mapping => ?_, ⟨?_, ?_, .existential innerApart⟩, .existential tidy solid, .existential solid,
      .inr ⟨_, _, rfl, bare⟩⟩
    · have sameWays := isMoved.ways world
      simp only [ways_existential] at sameWays
      rw [ways_existential, ways_existential, ((assignments_append _ _ _).map _).sum_eq, List.map_flatMap,
        sum_flatMap]
      simp only [sameWays]
    · simpa [names] using withinPart.names
    · simpa [binders] using withinPart.binders

theorem moved_recurseExistentials {condition : Condition} (simple : Simple condition) (apart : Apart condition)
    (noDisjunction : condition.hasDisjunction = false) : Moved condition condition.recurseExistentials := by
  induction condition using Condition.induct with
  | truth => exact absurd rfl simple.ne_truth
  | falsity => exact absurd rfl simple.ne_falsity
  | disjunction parts => cases noDisjunction
  | test kind args =>
    exact ⟨fun _ _ => rfl, Within.refl apart, .test kind args, .test kind args, .inl ⟨rfl, rfl, rfl⟩⟩
  | conjunction parts inductionHypothesis =>
    rw [noDisjunction_conjunction] at noDisjunction
    apply moved_conjunction simple apart noDisjunction
    intro part isPart
    cases simple with
    | conjunction _ simple _ =>
      exact inductionHypothesis part isPart (simple part isPart) (within_conjunctionPart apart isPart).apart
        (noDisjunction part isPart)
  | existential parameters part inductionHypothesis =>
    rw [hasDisjunction] at noDisjunction
    cases simple with
    | existential simple =>
      cases apart with
      | existential apart => exact moved_existential apart simple (inductionHypothesis simple apart noDisjunction)

/-- The condition of an effect without its quantifiers, which become parameters of the effect. -/
def eliminateExistential : Condition → List TypedObject × Condition
  | .existential parameters part => (parameters, part)
  | condition => ([], condition)

theorem eliminateExistential_of_bare {condition : Condition} (bare : Bare condition) :
    condition.eliminateExistential = ([], condition) := by
  cases condition with
  | existential _ _ => cases bare.2
  | truth | falsity | test _ _ | conjunction _ | disjunction _ => rfl

/-- What an effect keeps of a piece of its condition. -/
theorem moveExistentialQuantifiers_spec {condition : Condition} (normal : Normal condition) (apart : Apart condition)
    (noDisjunction : condition.hasDisjunction = false) :
    let result := condition.moveExistentialQuantifiers.eliminateExistential
    Flat result.2 ∧ result.1.map TypedObject.name ⊆ condition.binders ∧
      ∀ world mapping, ((assignments world.objectsByType result.1 mapping).map fun mapping =>
        result.2.ways world mapping).sum = condition.ways world mapping := by
  intro result
  rw [show result = condition.moveExistentialQuantifiers.eliminateExistential from rfl, moveExistentialQuantifiers]
  split
  case isFalse noExistential =>
    have bare : Bare condition := ⟨noDisjunction, by simpa using noExistential⟩
    rw [eliminateExistential_of_bare bare]
    exact ⟨normal.flat bare, List.nil_subset _, by simp⟩
  case isTrue hasExistential =>
    obtain rfl | rfl | simple := normal
    · cases hasExistential
    · cases hasExistential
    · have isMoved := moved_recurseExistentials simple apart noDisjunction
      obtain ⟨_, bare⟩ | ⟨parameters, part, isExistential, bare⟩ := isMoved.shape
      · exact absurd hasExistential (by simp [bare.2])
      · rw [isExistential] at isMoved ⊢
        obtain ⟨_, solid, _⟩ := @Moved.tidy_solid (condition, parameters, part) isMoved
        have sameWays : ∀ world mapping, (Condition.simplified (.existential parameters part)).ways world mapping =
            condition.ways world mapping := by
          intro world mapping
          rw [isMoved.tidy.ways_simplified, isMoved.ways]
        have subset : parameters.map TypedObject.name ⊆ condition.binders :=
          List.Subset.trans (List.subset_append_left _ _) isMoved.within.binders
        have flat := (normal_simplified part).flat bare.simplified
        rw [simplified] at sameWays ⊢
        cases isPart : part.simplified with
        | truth => exact absurd isPart solid.simplified_ne_truth
        | falsity =>
          rw [isPart] at sameWays
          refine ⟨.falsity, List.nil_subset _, fun world mapping => ?_⟩
          rw [← sameWays]
          rfl
        | test _ _ | conjunction _ | disjunction _ | existential _ _ =>
          rw [isPart] at sameWays flat
          refine ⟨flat, subset, fun world mapping => ?_⟩
          rw [← sameWays, simplifiedExistential, ways_existential]
          · rfl
          all_goals simp

/-- The parameters and conditions of the effects into which an effect with a condition is split. -/
def splitCondition (condition : Condition) : List (List TypedObject × Condition) :=
  condition.buildDnf.splitDisjunction.map fun piece => piece.moveExistentialQuantifiers.eliminateExistential

theorem splitCondition_flat {condition : Condition} (normal : Normal condition) (apart : Apart condition) :
    ∀ split ∈ condition.splitCondition, Flat split.2 ∧ split.1.map TypedObject.name ⊆ condition.binders := by
  rw [splitCondition, List.forall_mem_map]
  intro piece isPiece
  obtain ⟨pieceNormal, within, noDisjunction⟩ := buildDnf_pieces normal apart piece isPiece
  obtain ⟨flat, subset, _⟩ := moveExistentialQuantifiers_spec pieceNormal within.apart noDisjunction
  exact ⟨flat, List.Subset.trans subset within.binders⟩

/-- Splitting keeps the number of ways in which a condition holds. -/
theorem ways_splitCondition {condition : Condition} (normal : Normal condition) (apart : Apart condition)
    (world : World) (mapping : Mapping) :
    (condition.splitCondition.map fun split =>
      ((assignments world.objectsByType split.1 mapping).map fun mapping => split.2.ways world mapping).sum).sum =
      condition.ways world mapping := by
  rw [← ways_buildDnf normal apart, ← ways_splitDisjunction, splitCondition, List.map_map]
  apply congrArg List.sum
  apply List.map_congr_left
  intro piece isPiece
  obtain ⟨pieceNormal, within, noDisjunction⟩ := buildDnf_pieces normal apart piece isPiece
  exact (moveExistentialQuantifiers_spec pieceNormal within.apart noDisjunction).2.2 world mapping

end Condition

end CutPlan.Translate.Pddl
