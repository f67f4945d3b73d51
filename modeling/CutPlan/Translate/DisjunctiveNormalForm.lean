import CutPlan.Translate.ConditionSplitting

/-! # The disjunctive normal form of a condition

The pieces into which a condition is split hold in as many ways as the condition itself, and none of them binds a
variable of its own twice.
-/

namespace CutPlan.Translate.Pddl

namespace Condition

/-- A condition without disjunctions into which another one is split. -/
structure Piece (outer piece : Condition) : Prop where
  within : Within outer piece
  tidy : Tidy piece
  solid : Solid piece
  noDisjunction : piece.hasDisjunction = false

/-- A disjunction of pieces in place of a condition, or the condition itself. -/
structure Split (condition result : Condition) : Prop where
  ways : ∀ world mapping, result.ways world mapping = condition.ways world mapping
  pieces : ∀ piece ∈ result.splitDisjunction, Piece condition piece
  unchanged : result.disjunctiveParts = none → result = condition

theorem someHasDisjunction_eq (parts : List Condition) : someHasDisjunction parts = parts.any hasDisjunction := by
  induction parts with
  | nil => rfl
  | cons part parts inductionHypothesis => rw [someHasDisjunction, inductionHypothesis, List.any_cons]

theorem recurseDisjunctionsEach_eq (parts : List Condition) :
    recurseDisjunctionsEach parts = parts.map recurseDisjunctions := by
  induction parts with
  | nil => rfl
  | cons part parts inductionHypothesis => rw [recurseDisjunctionsEach, inductionHypothesis, List.map_cons]

theorem splitDisjunction_of_none {condition : Condition} (none : condition.disjunctiveParts = none) :
    condition.splitDisjunction = [condition] := by
  cases condition <;> simp_all [disjunctiveParts, splitDisjunction]

theorem disjunctiveParts_of_some {condition : Condition} (notNone : condition.disjunctiveParts ≠ none) :
    condition.disjunctiveParts = some condition.splitDisjunction := by
  cases condition <;> simp_all [disjunctiveParts, splitDisjunction]

theorem ways_splitDisjunction (condition : Condition) {world : World} {mapping : Mapping} :
    (condition.splitDisjunction.map (Condition.ways world mapping)).sum = condition.ways world mapping := by
  cases condition <;> simp [splitDisjunction]

theorem Piece.mono {outer middle piece : Condition} (isPiece : Piece middle piece) (within : Within outer middle) :
    Piece outer piece :=
  ⟨within.trans isPiece.within, isPiece.tidy, isPiece.solid, isPiece.noDisjunction⟩

/-! ### Distribution -/

theorem ways_distribute {world : World} {mapping : Mapping} (results : List Condition) (parts : List (List Condition)) :
    ((distribute results parts).map (Condition.ways world mapping)).sum =
      (results.map (Condition.ways world mapping)).sum *
        (parts.map fun parts => (parts.map (Condition.ways world mapping)).sum).prod := by
  induction parts generalizing results with
  | nil => simp [distribute]
  | cons first parts inductionHypothesis =>
    have sums : ((results.flatMap fun result => first.map fun part => Condition.conjunction [result, part]).map
        (Condition.ways world mapping)).sum =
          (results.map (Condition.ways world mapping)).sum * (first.map (Condition.ways world mapping)).sum := by
      clear inductionHypothesis
      induction results with
      | nil => simp
      | cons result results inductionHypothesis =>
        have scaled : ((first.map fun part => Condition.conjunction [result, part]).map
            (Condition.ways world mapping)).sum =
              result.ways world mapping * (first.map (Condition.ways world mapping)).sum := by
          rw [List.map_map, ← List.sum_map_mul_left]
          simp [Function.comp_def]
        rw [List.flatMap_cons, List.map_append, List.sum_append, scaled, inductionHypothesis, List.map_cons,
          List.sum_cons, add_mul]
    rw [distribute, inductionHypothesis, sums, List.map_cons, List.prod_cons, mul_assoc]

/-- The results bind the variables of what has been distributed so far, and the rest binds others. -/
theorem distribute_pieces {pieces : Condition → List Condition} {sources results : List Condition} {done : Condition}
    (separate : (done :: sources).Pairwise Separate)
    (areResults : ∀ result ∈ results, Within done result ∧ Tidy result ∧ result.hasDisjunction = false)
    (solid : sources = [] → ∀ result ∈ results, Solid result)
    (arePieces : ∀ source ∈ sources, ∀ piece ∈ pieces source, Piece source piece) :
    ∀ result ∈ distribute results (sources.map pieces), Piece (.conjunction (done :: sources)) result := by
  induction sources generalizing done results with
  | nil =>
    intro result isResult
    rw [List.map_nil, distribute] at isResult
    obtain ⟨within, tidy, noDisjunction⟩ := areResults result isResult
    exact ⟨⟨by simpa [names, namesOfEach] using within.names, by simpa [binders, bindersOfEach] using within.binders,
      within.apart⟩, tidy, solid rfl result isResult, noDisjunction⟩
  | cons source sources inductionHypothesis =>
    obtain ⟨doneSeparate, sourcesSeparate⟩ := List.pairwise_cons.mp separate
    obtain ⟨sourceSeparate, restSeparate⟩ := List.pairwise_cons.mp sourcesSeparate
    have sourcePieces := arePieces source List.mem_cons_self
    have nextSeparate : (Condition.conjunction [done, source] :: sources).Pairwise Separate := by
      refine List.pairwise_cons.mpr ⟨fun other isOther => ?_, restSeparate⟩
      have first := doneSeparate other (List.mem_cons_of_mem _ isOther)
      have second := sourceSeparate other isOther
      constructor
      · intro name isBinder isName
        simp only [binders, mem_bindersOfEach, List.mem_cons, List.not_mem_nil, or_false, exists_eq_or_imp,
          exists_eq_left] at isBinder
        obtain isBinder | isBinder := isBinder
        · exact first.1 isBinder isName
        · exact second.1 isBinder isName
      · intro name isBinder isName
        simp only [names, mem_namesOfEach, List.mem_cons, List.not_mem_nil, or_false, exists_eq_or_imp,
          exists_eq_left] at isName
        obtain isName | isName := isName
        · exact first.2 isBinder isName
        · exact second.2 isBinder isName
    have areNext : ∀ result ∈ results.flatMap fun first => (pieces source).map fun second =>
        Condition.conjunction [first, second],
          (Within (.conjunction [done, source]) result ∧ Tidy result ∧ result.hasDisjunction = false) ∧
            Solid result := by
      intro result isResult
      obtain ⟨first, isFirst, isResult⟩ := List.mem_flatMap.mp isResult
      obtain ⟨second, isSecond, rfl⟩ := List.mem_map.mp isResult
      obtain ⟨within, tidy, noDisjunction⟩ := areResults first isFirst
      have piece := sourcePieces second isSecond
      have partsSeparate : [first, second].Pairwise Separate := by
        simpa using (doneSeparate source List.mem_cons_self).mono within piece.within
      refine ⟨⟨⟨?_, ?_, .conjunction ?_ partsSeparate⟩, .conjunction ?_, ?_⟩,
        .conjunction (List.mem_cons_of_mem _ (List.mem_singleton_self second)) piece.solid⟩
      · simp only [names, namesOfEach, List.append_nil]
        exact List.append_subset.mpr ⟨List.Subset.trans within.names (List.subset_append_left _ _),
          List.Subset.trans piece.within.names (List.subset_append_right _ _)⟩
      · simp only [binders, bindersOfEach, List.append_nil]
        exact List.append_subset.mpr ⟨List.Subset.trans within.binders (List.subset_append_left _ _),
          List.Subset.trans piece.within.binders (List.subset_append_right _ _)⟩
      · simpa using ⟨within.apart, piece.within.apart⟩
      · simpa using ⟨tidy, piece.tidy⟩
      · simp [hasDisjunction, someHasDisjunction, noDisjunction, piece.noDisjunction]
    intro result isResult
    rw [List.map_cons, distribute] at isResult
    have piece := inductionHypothesis nextSeparate (fun result isResult => (areNext result isResult).1)
      (fun _ result isResult => (areNext result isResult).2)
      (fun source isSource => arePieces source (List.mem_cons_of_mem _ isSource)) result isResult
    refine ⟨⟨?_, ?_, piece.within.apart⟩, piece.tidy, piece.solid, piece.noDisjunction⟩
    · simpa [names, namesOfEach] using piece.within.names
    · simpa [binders, bindersOfEach] using piece.within.binders

/-! ### The recursion -/

/-- The parts that stay as they are, and those that become disjunctions. -/
structure SplitParts (parts kept split : List Condition) : Prop where
  perm : (kept ++ split).Perm parts
  kept : (parts.map recurseDisjunctions).filter (fun part => part.disjunctiveParts.isNone) = kept
  split : (parts.map recurseDisjunctions).filterMap disjunctiveParts =
    split.map fun part => part.recurseDisjunctions.splitDisjunction

theorem exists_splitParts {parts : List Condition} (areSplit : ∀ part ∈ parts, Split part part.recurseDisjunctions) :
    ∃ kept split, SplitParts parts kept split ∧ ∀ part ∈ kept, Piece part part := by
  induction parts with
  | nil => exact ⟨[], [], ⟨.nil, rfl, rfl⟩, by simp⟩
  | cons part parts inductionHypothesis =>
    rw [List.forall_mem_cons] at areSplit
    obtain ⟨kept, split, isSplit, pieces⟩ := inductionHypothesis areSplit.2
    by_cases none : part.recurseDisjunctions.disjunctiveParts = none
    case pos =>
      have unchanged := areSplit.1.unchanged none
      have piece := areSplit.1.pieces
      rw [splitDisjunction_of_none none, unchanged, List.forall_mem_singleton] at piece
      refine ⟨part :: kept, split, ⟨isSplit.perm.cons part, ?_, ?_⟩, List.forall_mem_cons.mpr ⟨piece, pieces⟩⟩
      · rw [List.map_cons, List.filter_cons_of_pos (by simp [none]), isSplit.kept, unchanged]
      · rw [List.map_cons, List.filterMap_cons_none none, isSplit.split]
    case neg =>
      refine ⟨kept, part :: split, ⟨?_, ?_, ?_⟩, pieces⟩
      · exact List.perm_middle.trans (isSplit.perm.cons part)
      · rw [List.map_cons, List.filter_cons_of_neg (by simpa using none), isSplit.kept]
      · rw [List.map_cons, List.filterMap_cons_some (disjunctiveParts_of_some none), isSplit.split, List.map_cons]

section Parts

variable {parts kept split : List Condition}

theorem SplitParts.ways (isSplit : SplitParts parts kept split)
    (areSplit : ∀ part ∈ parts, Split part part.recurseDisjunctions) (world : World) (mapping : Mapping) :
    (split.map fun part => (part.recurseDisjunctions.splitDisjunction.map (Condition.ways world mapping)).sum) =
      split.map (Condition.ways world mapping) := by
  apply List.map_congr_left
  intro part isPart
  rw [ways_splitDisjunction, (areSplit part (isSplit.perm.subset (List.mem_append_right _ isPart))).ways]

theorem split_conjunction (simple : Simple (.conjunction parts)) (apart : Apart (.conjunction parts))
    (areSplit : ∀ part ∈ parts, Split part part.recurseDisjunctions) :
    Split (.conjunction parts) (Condition.recurseDisjunctions (.conjunction parts)) := by
  obtain ⟨kept, split, isSplit, pieces⟩ := exists_splitParts areSplit
  rw [recurseDisjunctions, recurseDisjunctionsEach_eq]
  simp only [pullDisjunctions, isSplit.kept, isSplit.split]
  split
  case isTrue noneSplit =>
    rw [List.map_eq_nil_iff] at noneSplit
    subst noneSplit
    refine ⟨fun _ _ => rfl, ?_, fun _ => rfl⟩
    simp only [splitDisjunction, List.forall_mem_singleton]
    refine ⟨Within.refl apart, simple.tidy_solid.1, simple.tidy_solid.2, ?_⟩
    rw [hasDisjunction, someHasDisjunction_eq, List.any_eq_false]
    intro part isPart
    have isKept := isSplit.perm.mem_iff.mpr isPart
    rw [List.append_nil] at isKept
    simp [(pieces part isKept).noDisjunction]
  case isFalse someSplit =>
    rw [List.map_eq_nil_iff] at someSplit
    have inParts : ∀ part ∈ kept ++ split, part ∈ parts := fun part => isSplit.perm.mem_iff.mp
    refine ⟨fun world mapping => ?_, ?_, by simp [disjunctiveParts]⟩
    · have ways := isSplit.ways areSplit world mapping
      rw [ways_disjunction, ways_distribute, ← List.map_reverse, List.map_map, List.map_singleton, List.sum_singleton,
        ways_conjunction, ways_conjunction, List.map_reverse, List.prod_reverse, Function.comp_def, ways,
        ← List.prod_append, ← List.map_append]
      exact (isSplit.perm.map _).prod_eq
    · cases apart with
      | conjunction apart separate =>
        have separateParts : (kept ++ split).Pairwise Separate :=
          isSplit.perm.symm.pairwise separate fun separate => separate.symm
        obtain ⟨keptSeparate, splitSeparate, between⟩ := List.pairwise_append.mp separateParts
        have keptApart : Apart (.conjunction kept) :=
          .conjunction (fun part isPart => apart part (inParts part (List.mem_append_left _ isPart))) keptSeparate
        have separateDone : (Condition.conjunction kept :: split.reverse).Pairwise Separate := by
          refine List.pairwise_cons.mpr ⟨fun other isOther => ⟨?_, ?_⟩,
            List.pairwise_reverse.mpr (splitSeparate.imp Separate.symm)⟩
          · intro name isBinder isName
            obtain ⟨part, isPart, isBinder⟩ := mem_bindersOfEach.mp isBinder
            exact (between part isPart other (List.mem_reverse.mp isOther)).1 isBinder isName
          · intro name isBinder isName
            obtain ⟨part, isPart, isName⟩ := mem_namesOfEach.mp isName
            exact (between part isPart other (List.mem_reverse.mp isOther)).2 isBinder isName
        have keptResult : ∀ result ∈ [Condition.conjunction kept], Within (.conjunction kept) result ∧ Tidy result ∧
            result.hasDisjunction = false := by
          rw [List.forall_mem_singleton]
          refine ⟨Within.refl keptApart, .conjunction fun part isPart => (pieces part isPart).tidy, ?_⟩
          rw [hasDisjunction, someHasDisjunction_eq, List.any_eq_false]
          intro part isPart
          simp [(pieces part isPart).noDisjunction]
        intro result isResult
        rw [splitDisjunction, ← List.map_reverse] at isResult
        have piece := distribute_pieces separateDone keptResult (by simp [someSplit])
          (fun source isSource => (areSplit source
            (inParts source (List.mem_append_right _ (List.mem_reverse.mp isSource)))).pieces) result isResult
        refine ⟨⟨fun name isName => ?_, fun name isName => ?_, piece.within.apart⟩, piece.tidy, piece.solid,
          piece.noDisjunction⟩
        · have isName := piece.within.names isName
          simp only [names, namesOfEach, List.mem_append, mem_namesOfEach, List.mem_reverse] at isName ⊢
          obtain ⟨part, isPart, isName⟩ | ⟨part, isPart, isName⟩ := isName
          · exact ⟨part, inParts part (List.mem_append_left _ isPart), isName⟩
          · exact ⟨part, inParts part (List.mem_append_right _ isPart), isName⟩
        · have isName := piece.within.binders isName
          simp only [binders, bindersOfEach, List.mem_append, mem_bindersOfEach, List.mem_reverse] at isName ⊢
          obtain ⟨part, isPart, isName⟩ | ⟨part, isPart, isName⟩ := isName
          · exact ⟨part, inParts part (List.mem_append_left _ isPart), isName⟩
          · exact ⟨part, inParts part (List.mem_append_right _ isPart), isName⟩

theorem split_disjunction (apart : Apart (.disjunction parts))
    (areSplit : ∀ part ∈ parts, Split part part.recurseDisjunctions) :
    Split (.disjunction parts) (Condition.recurseDisjunctions (.disjunction parts)) := by
  obtain ⟨kept, split, isSplit, pieces⟩ := exists_splitParts areSplit
  have inParts : ∀ part ∈ kept ++ split, part ∈ parts := fun part => isSplit.perm.mem_iff.mp
  have keptPieces : ∀ part ∈ kept, Piece (.disjunction parts) part := fun part isPart =>
    (pieces part isPart).mono (within_disjunctionPart apart (inParts part (List.mem_append_left _ isPart)))
  rw [recurseDisjunctions, recurseDisjunctionsEach_eq]
  simp only [pullDisjunctions, isSplit.kept, isSplit.split]
  split
  case isTrue noneSplit =>
    rw [List.map_eq_nil_iff] at noneSplit
    subst noneSplit
    refine ⟨fun _ _ => rfl, fun part isPart => keptPieces part ?_, fun _ => rfl⟩
    simpa using isSplit.perm.mem_iff.mpr isPart
  case isFalse =>
    refine ⟨fun world mapping => ?_, ?_, by simp [disjunctiveParts]⟩
    · rw [ways_disjunction, ways_disjunction, List.map_append, List.sum_append, List.map_flatten, List.sum_flatten,
        List.map_map, List.map_map]
      have ways := isSplit.ways areSplit world mapping
      rw [Function.comp_def, Function.comp_def, ways, ← List.sum_append, ← List.map_append]
      exact (isSplit.perm.map _).sum_eq
    · intro piece isPiece
      rw [splitDisjunction, List.mem_append] at isPiece
      obtain isKept | isPiece := isPiece
      · exact keptPieces piece isKept
      · obtain ⟨_, isParts, isPiece⟩ := List.mem_flatten.mp isPiece
        obtain ⟨part, isPart, rfl⟩ := List.mem_map.mp isParts
        have isPart := inParts part (List.mem_append_right _ isPart)
        exact ((areSplit part isPart).pieces piece isPiece).mono (within_disjunctionPart apart isPart)

theorem split_existential {parameters : List TypedObject} {part : Condition}
    (isSplit : Split part part.recurseDisjunctions) :
    Split (.existential parameters part) (Condition.recurseDisjunctions (.existential parameters part)) := by
  have piece : ∀ piece ∈ part.recurseDisjunctions.splitDisjunction,
      Piece (.existential parameters part) (.existential parameters piece) := by
    intro piece isPiece
    obtain ⟨within, tidy, solid, noDisjunction⟩ := isSplit.pieces piece isPiece
    exact ⟨within.existential parameters, .existential tidy solid, .existential solid, by rwa [hasDisjunction]⟩
  rw [recurseDisjunctions]
  by_cases none : part.recurseDisjunctions.disjunctiveParts = none
  case pos =>
    have noneSplit : [part.recurseDisjunctions].filterMap disjunctiveParts = [] := by simp [none]
    rw [splitDisjunction_of_none none, isSplit.unchanged none, List.forall_mem_singleton] at piece
    simp only [pullDisjunctions, noneSplit]
    exact ⟨fun _ _ => rfl, by simpa [splitDisjunction] using piece, fun _ => rfl⟩
  case neg =>
    have someSplit : [part.recurseDisjunctions].filterMap disjunctiveParts =
        [part.recurseDisjunctions.splitDisjunction] := by
      simp [disjunctiveParts_of_some none]
    simp only [pullDisjunctions, someSplit]
    refine ⟨fun world mapping => ?_, ?_, by simp [disjunctiveParts]⟩
    · rw [if_neg (by simp), ways_disjunction, ways_existential, List.flatten_singleton, List.map_map]
      have swapped := Multiset.sum_map_sum_map (assignments world.objectsByType parameters mapping : Multiset Mapping)
        (part.recurseDisjunctions.splitDisjunction : Multiset Condition)
        (f := fun mapping piece => piece.ways world mapping)
      simp only [Multiset.map_coe, Multiset.sum_coe, ways_splitDisjunction, isSplit.ways] at swapped
      rw [swapped]
      simp only [Function.comp_def, ways_existential]
    · rw [if_neg (by simp), splitDisjunction, List.flatten_singleton, List.forall_mem_map]
      exact piece

end Parts

theorem split_recurseDisjunctions {condition : Condition} (simple : Simple condition) (apart : Apart condition) :
    Split condition condition.recurseDisjunctions := by
  induction condition using Condition.induct with
  | truth => exact absurd rfl simple.ne_truth
  | falsity => exact absurd rfl simple.ne_falsity
  | test kind args =>
    refine ⟨fun _ _ => rfl, ?_, fun _ => rfl⟩
    simpa [recurseDisjunctions, splitDisjunction] using
      (⟨Within.refl apart, .test kind args, .test kind args, rfl⟩ : Piece (.test kind args) (.test kind args))
  | conjunction parts inductionHypothesis =>
    have areSplit : ∀ part ∈ parts, Split part part.recurseDisjunctions := by
      intro part isPart
      cases simple with
      | conjunction _ simple _ =>
        exact inductionHypothesis part isPart (simple part isPart) (within_conjunctionPart apart isPart).apart
    exact split_conjunction simple apart areSplit
  | disjunction parts inductionHypothesis =>
    apply split_disjunction apart
    intro part isPart
    cases simple with
    | disjunction _ simple _ =>
      exact inductionHypothesis part isPart (simple part isPart) (within_disjunctionPart apart isPart).apart
  | existential parameters part inductionHypothesis =>
    apply split_existential
    cases simple with
    | existential simple =>
      cases apart with
      | existential apart => exact inductionHypothesis simple apart

end Condition

/-! ## Splitting -/

namespace Condition

/-- Simplification makes no disjunctions and no quantifiers. -/
theorem simplified_keeps {property : Condition → Prop} (truth : property .truth) (falsity : property .falsity)
    (conjunction : ∀ parts, property (.conjunction parts) ↔ ∀ part ∈ parts, property part)
    (disjunction : ∀ parts, ¬ property (.disjunction parts))
    (existential : ∀ parameters part, property (.existential parameters part) →
      property part ∧ ∀ other, property other → property (.existential parameters other))
    {condition : Condition} (holds : property condition) : property condition.simplified := by
  induction condition using Condition.induct with
  | truth => exact truth
  | falsity => exact falsity
  | test kind args => exact holds
  | disjunction parts => exact absurd holds (disjunction parts)
  | conjunction parts inductionHypothesis =>
    have ofParts : ∀ part ∈ parts.map simplified, property part :=
      List.forall_mem_map.mpr fun part isPart => inductionHypothesis part isPart ((conjunction parts).mp holds part isPart)
    have ofConjuncts : ∀ part ∈ (parts.map simplified).flatMap conjuncts, property part := by
      intro part isPart
      obtain ⟨outer, isOuter, isInner⟩ := List.mem_flatMap.mp isPart
      have ofOuter := ofParts outer isOuter
      cases outer with
      | conjunction inner => exact (conjunction inner).mp ofOuter part isInner
      | truth => simp [conjuncts] at isInner
      | falsity | test _ _ | disjunction _ | existential _ _ =>
        rw [conjuncts, List.mem_singleton] at isInner
        · exact isInner ▸ ofOuter
        all_goals simp
    rw [simplified, simplifiedEach_eq]
    obtain ⟨_, same⟩ | ⟨_, ⟨_, same⟩ | ⟨part, isPart, same⟩ | ⟨_, same⟩⟩ :=
      simplifiedConjunction_cases (parts.map simplified)
    · exact same ▸ falsity
    · exact same ▸ truth
    · rw [same]
      exact ofConjuncts part (isPart ▸ List.mem_singleton_self part)
    · rw [same]
      exact (conjunction _).mpr ofConjuncts
  | existential parameters part inductionHypothesis =>
    obtain ⟨ofPart, rebuilt⟩ := existential parameters part holds
    have ofSimplified := inductionHypothesis ofPart
    rw [simplified]
    cases isPart : part.simplified with
    | truth => exact truth
    | falsity => exact falsity
    | test _ _ | conjunction _ | disjunction _ | existential _ _ =>
      rw [isPart] at ofSimplified
      exact rebuilt _ ofSimplified

theorem someHasExistentialPart_eq (parts : List Condition) :
    someHasExistentialPart parts = parts.any hasExistentialPart := by
  induction parts with
  | nil => rfl
  | cons part parts inductionHypothesis => rw [someHasExistentialPart, inductionHypothesis, List.any_cons]

theorem noDisjunction_conjunction {parts : List Condition} :
    hasDisjunction (.conjunction parts) = false ↔ ∀ part ∈ parts, part.hasDisjunction = false := by
  rw [hasDisjunction, someHasDisjunction_eq, List.any_eq_false]
  simp

theorem noExistential_conjunction {parts : List Condition} :
    hasExistentialPart (.conjunction parts) = false ↔ ∀ part ∈ parts, part.hasExistentialPart = false := by
  rw [hasExistentialPart, someHasExistentialPart_eq, List.any_eq_false]
  simp

theorem noDisjunction_simplified {condition : Condition} (noDisjunction : condition.hasDisjunction = false) :
    condition.simplified.hasDisjunction = false := by
  refine @simplified_keeps (fun condition => condition.hasDisjunction = false) rfl rfl
    (fun _ => noDisjunction_conjunction) (by simp [hasDisjunction]) ?_ _ noDisjunction
  intro parameters part holds
  rw [hasDisjunction] at holds
  exact ⟨holds, fun other ofOther => by rwa [hasDisjunction]⟩

/-- A condition of tests. -/
def Bare (condition : Condition) : Prop := condition.hasDisjunction = false ∧ condition.hasExistentialPart = false

theorem Bare.simplified {condition : Condition} (bare : Bare condition) : Bare condition.simplified := by
  refine simplified_keeps ⟨rfl, rfl⟩ ⟨rfl, rfl⟩ (fun parts => ?_) (fun parts bare => ?_) (fun parameters part bare => ?_) bare
  · rw [Bare, noDisjunction_conjunction, noExistential_conjunction, ← forall₂_and]
    rfl
  · exact absurd bare.1 (by simp [hasDisjunction])
  · exact absurd bare.2 (by simp [hasExistentialPart])

/-- What can be instantiated. -/
inductive Flat : Condition → Prop where
  | truth : Flat .truth
  | falsity : Flat .falsity
  | test (test : Test) (args : List Argument) : Flat (.test test args)
  | conjunction (tests : List (Test × List Argument)) :
      Flat (.conjunction (tests.map fun test => .test test.1 test.2))

theorem Normal.flat {condition : Condition} (normal : Normal condition) (bare : Bare condition) : Flat condition := by
  obtain rfl | rfl | simple := normal
  · exact .truth
  · exact .falsity
  · cases simple with
    | test kind args => exact .test kind args
    | disjunction _ _ _ => exact absurd bare.1 (by simp [hasDisjunction])
    | existential _ => exact absurd bare.2 (by simp [hasExistentialPart])
    | @conjunction parts _ simple flat =>
      have areTests : ∀ part ∈ parts, ∃ test : Test × List Argument, Condition.test test.1 test.2 = part := by
        intro part isPart
        cases simple part isPart with
        | test kind args => exact ⟨(kind, args), rfl⟩
        | conjunction _ _ _ => exact absurd rfl (flat _ isPart _)
        | disjunction _ _ _ => exact absurd (noDisjunction_conjunction.mp bare.1 _ isPart) (by simp [hasDisjunction])
        | existential _ => exact absurd (noExistential_conjunction.mp bare.2 _ isPart) (by simp [hasExistentialPart])
      have isMap : parts ∈ Set.range (List.map fun test : Test × List Argument => Condition.test test.1 test.2) := by
        rw [Set.range_list_map]
        exact areTests
      obtain ⟨tests, rfl⟩ := isMap
      exact .conjunction tests

theorem splitDisjunction_of_noDisjunction {condition : Condition} (noDisjunction : condition.hasDisjunction = false) :
    condition.splitDisjunction = [condition] := by
  cases condition <;> simp_all [hasDisjunction, splitDisjunction]

theorem ways_buildDnf {condition : Condition} (normal : Normal condition) (apart : Apart condition) (world : World)
    (mapping : Mapping) : condition.buildDnf.ways world mapping = condition.ways world mapping := by
  rw [buildDnf]
  split
  case isFalse => rfl
  case isTrue hasDisjunction =>
    obtain rfl | rfl | simple := normal
    · cases hasDisjunction
    · cases hasDisjunction
    · have isSplit := split_recurseDisjunctions simple apart
      have tidy : Tidy condition.recurseDisjunctions := by
        cases isResult : condition.recurseDisjunctions with
        | disjunction parts =>
          have pieces := isSplit.pieces
          rw [isResult, splitDisjunction] at pieces
          exact .disjunction (fun part isPart => (pieces part isPart).tidy) fun part isPart => (pieces part isPart).solid
        | truth | falsity | test _ _ | conjunction _ | existential _ _ =>
          rw [← isResult, isSplit.unchanged (by rw [isResult]; rfl)]
          exact simple.tidy_solid.1
      rw [tidy.ways_simplified, isSplit.ways]

/-- After the normal form disjunctions are at the root only. -/
theorem buildDnf_pieces {condition : Condition} (normal : Normal condition) (apart : Apart condition) :
    ∀ piece ∈ condition.buildDnf.splitDisjunction,
      Normal piece ∧ Within condition piece ∧ piece.hasDisjunction = false := by
  rw [buildDnf]
  split
  case isFalse noDisjunction =>
    rw [Bool.not_eq_true] at noDisjunction
    rw [splitDisjunction_of_noDisjunction noDisjunction, List.forall_mem_singleton]
    exact ⟨normal, Within.refl apart, noDisjunction⟩
  case isTrue hasDisjunction =>
    obtain rfl | rfl | simple := normal
    · cases hasDisjunction
    · cases hasDisjunction
    · have isSplit := split_recurseDisjunctions simple apart
      cases isResult : condition.recurseDisjunctions with
      | disjunction parts =>
        have pieces := isSplit.pieces
        rw [isResult, splitDisjunction] at pieces
        rw [simplified, simplifiedEach_eq]
        have simplifiedPieces : ∀ part ∈ parts.map simplified,
            Normal part ∧ Within condition part ∧ part.hasDisjunction = false := by
          refine List.forall_mem_map.mpr fun part isPart => ⟨normal_simplified part, ?_, ?_⟩
          · exact (pieces part isPart).within.trans (within_simplified (pieces part isPart).within.apart)
          · exact noDisjunction_simplified (pieces part isPart).noDisjunction
        have flattened : ∀ part ∈ (parts.map simplified).flatMap disjuncts,
            Normal part ∧ Within condition part ∧ part.hasDisjunction = false := by
          intro part isPart
          obtain ⟨outer, isOuter, isInner⟩ := List.mem_flatMap.mp isPart
          have ofOuter := simplifiedPieces outer isOuter
          cases outer with
          | disjunction parts => cases ofOuter.2.2
          | falsity => simp [disjuncts] at isInner
          | truth | test _ _ | conjunction _ | existential _ _ =>
            rw [disjuncts, List.mem_singleton] at isInner
            · exact isInner ▸ ofOuter
            all_goals simp
        obtain ⟨_, same⟩ | ⟨_, ⟨_, same⟩ | ⟨part, isPart, same⟩ | ⟨_, same⟩⟩ :=
          simplifiedDisjunction_cases (parts.map simplified)
        · rw [same]
          simpa [splitDisjunction] using ⟨Or.inl rfl, within_truth condition, rfl⟩
        · rw [same]
          simpa [splitDisjunction] using ⟨Or.inr (Or.inl rfl), within_falsity condition, rfl⟩
        · have ofPart := flattened part (isPart ▸ List.mem_singleton_self part)
          rwa [same, splitDisjunction_of_noDisjunction ofPart.2.2, List.forall_mem_singleton]
        · rw [same]
          exact flattened
      | truth | falsity | test _ _ | conjunction _ | existential _ _ =>
        -- Nothing was pulled out, although there is a disjunction.
        have none : condition.recurseDisjunctions.disjunctiveParts = none := by rw [isResult]; rfl
        have piece := isSplit.pieces
        rw [splitDisjunction_of_none none, isSplit.unchanged none, List.forall_mem_singleton] at piece
        exact absurd hasDisjunction (by simp [piece.noDisjunction])

end Condition

end CutPlan.Translate.Pddl
