import CutPlan.Translate.AxiomRules
import Mathlib.Data.Finset.Card
import Mathlib.Logic.Relation

/-! # Layers of the axioms

If no atom that depends on itself depends on an edge with a bonus, the search for levels ends without a
failed assertion and puts every atom above what it depends on.
-/

namespace CutPlan.Translate.AxiomRules

open CutPlan.Lib

variable {Atom : Type} (edges : Atom → List (Atom × ℕ))

def DependsOn (atom condition : Atom) : Prop :=
  ∃ bonus, (condition, bonus) ∈ edges atom

/-- The atom is, or depends on, one that has an edge with a bonus. -/
def UsesBonus (atom : Atom) : Prop :=
  ∃ user, Relation.ReflTransGen (DependsOn edges) atom user ∧
    ∃ edge ∈ edges user, 0 < edge.2

/-- Recursion stays below every bonus. -/
def RecursionFree : Prop :=
  ∀ atom, Relation.TransGen (DependsOn edges) atom atom → ¬ UsesBonus edges atom

variable {edges}

theorem UsesBonus.of_dependsOn {atom condition : Atom}
    (depends : DependsOn edges atom condition) (uses : UsesBonus edges condition) :
    UsesBonus edges atom := by
  obtain ⟨user, reaches, edge⟩ := uses
  exact ⟨user, .head depends reaches, edge⟩

theorem UsesBonus.of_reaches {atom condition : Atom}
    (reaches : Relation.TransGen (DependsOn edges) atom condition)
    (uses : UsesBonus edges condition) : UsesBonus edges atom := by
  obtain ⟨user, reachesUser, edge⟩ := uses
  exact ⟨user, reaches.to_reflTransGen.trans reachesUser, edge⟩

/-! ## Tables of layers -/

/-- An edge of a finished atom: its target has no axiom, or is finished as well, or is still being
visited and then has level 0. -/
inductive EdgeSettled (edges : Atom → List (Atom × ℕ)) (layers : Atom → ℤ) (level : ℤ) :
    Atom × ℕ → Prop
  | noAxiom {edge : Atom × ℕ} : layers edge.1 = noAxiom → (edge.2 : ℤ) ≤ level →
      EdgeSettled edges layers level edge
  | finished {edge : Atom × ℕ} : 0 ≤ layers edge.1 → layers edge.1 + edge.2 ≤ level →
      EdgeSettled edges layers level edge
  | visited {edge : Atom × ℕ} : layers edge.1 ≤ firstMarker → edge.2 = 0 →
      ¬ UsesBonus edges edge.1 → EdgeSettled edges layers level edge

structure Levelled (edges : Atom → List (Atom × ℕ)) (layers : Atom → ℤ) : Prop where
  settled : ∀ atom, 0 ≤ layers atom → ∀ edge ∈ edges atom,
    EdgeSettled edges layers (layers atom) edge
  usesBonus : ∀ atom, 0 < layers atom → UsesBonus edges atom

/-- The atoms being visited depend on the current one, and on a bonus if the marker has changed since. -/
def Visiting (edges : Atom → List (Atom × ℕ)) (layers : Atom → ℤ) (atom : Atom) (marker : ℤ) : Prop :=
  ∀ visited, layers visited ≤ firstMarker →
    Relation.TransGen (DependsOn edges) visited atom ∧ marker ≤ layers visited ∧
      (marker < layers visited → UsesBonus edges visited)

/-- Only unknown layers change, and they become levels. -/
structure Extends (before after : Atom → ℤ) : Prop where
  known : ∀ atom, before atom ≠ unknownLayer → after atom = before atom
  found : ∀ atom, before atom = unknownLayer → after atom = unknownLayer ∨ 0 ≤ after atom

theorem Extends.refl (layers : Atom → ℤ) : Extends layers layers where
  known := fun _ _ => rfl
  found := fun _ unknown => .inl unknown

theorem Extends.trans {first second third : Atom → ℤ} (before : Extends first second)
    (after : Extends second third) : Extends first third where
  known := by
    intro atom isKnown
    rw [after.known atom (before.known atom isKnown ▸ isKnown), before.known atom isKnown]
  found := by
    intro atom unknown
    obtain still | finished := before.found atom unknown
    · exact after.found atom still
    · right
      have isKnown : second atom ≠ unknownLayer := by
        unfold unknownLayer
        omega
      rwa [after.known atom isKnown]

/-- The value that a call returns for an atom. -/
def Valued (layers : Atom → ℤ) (atom : Atom) (level : ℕ) : Prop :=
  layers atom = level ∨ level = 0 ∧ (layers atom = noAxiom ∨ layers atom ≤ firstMarker)

theorem Extends.valued {before after : Atom → ℤ} (extends' : Extends before after) {atom : Atom}
    {level : ℕ} (valued : Valued before atom level) : Valued after atom level := by
  have isKnown : before atom ≠ unknownLayer := by
    unfold Valued noAxiom firstMarker at valued
    unfold unknownLayer
    omega
  unfold Valued
  rwa [extends'.known atom isKnown]

def unknownAtoms (atoms : Finset Atom) (layers : Atom → ℤ) : Finset Atom :=
  atoms.filter fun atom => layers atom = unknownLayer

theorem Extends.unknownAtoms_card {before after : Atom → ℤ} (extends' : Extends before after)
    (atoms : Finset Atom) : (unknownAtoms atoms after).card ≤ (unknownAtoms atoms before).card := by
  refine Finset.card_le_card fun atom member => ?_
  rw [unknownAtoms, Finset.mem_filter] at member ⊢
  refine ⟨member.1, ?_⟩
  by_contra isKnown
  exact isKnown (extends'.known atom isKnown ▸ member.2)

/-! ## A call of the search -/

variable [DecidableEq Atom]

/-- What a call with enough fuel guarantees. -/
def FindsLevel (edges : Atom → List (Atom × ℕ)) (atoms : Finset Atom) (fuel : ℕ) : Prop :=
  ∀ atom marker layers, marker ≤ firstMarker → Levelled edges layers →
    Visiting edges layers atom marker → (∀ other, layers other = unknownLayer → other ∈ atoms) →
    (unknownAtoms atoms layers).card ≤ fuel →
    ∃ level after, findLevel edges fuel atom marker layers = some (level, after) ∧
      Levelled edges after ∧ Extends layers after ∧ Valued after atom level

/-- The loop over the edges of an atom. -/
theorem foldlM_edges {atoms : Finset Atom} {fuel : ℕ} (finds : FindsLevel edges atoms fuel)
    {atom : Atom} {marker : ℤ} (isMarker : marker ≤ firstMarker) {remaining : List (Atom × ℕ)}
    (subset : ∀ edge ∈ remaining, edge ∈ edges atom) (level : ℕ) {layers : Atom → ℤ}
    (levelled : Levelled edges layers) (current : layers atom = marker)
    (visiting : ∀ visited, layers visited ≤ firstMarker → visited = atom ∨
      Relation.TransGen (DependsOn edges) visited atom ∧ marker ≤ layers visited ∧
        (marker < layers visited → UsesBonus edges visited))
    (within : ∀ other, layers other = unknownLayer → other ∈ atoms)
    (enough : (unknownAtoms atoms layers).card ≤ fuel) :
    ∃ result after,
      remaining.foldlM
        (fun (layer, layers) edge => do
          let (level, layers) ← findLevel edges fuel edge.1 (marker - edge.2) layers
          return (max layer (level + edge.2), layers))
        (level, layers) = some (result, after) ∧
      Levelled edges after ∧ Extends layers after ∧ level ≤ result ∧
      (∀ edge ∈ remaining, ∃ edgeLevel, Valued after edge.1 edgeLevel ∧
        edgeLevel + edge.2 ≤ result) ∧
      (level < result → UsesBonus edges atom) := by
  induction remaining generalizing level layers with
  | nil => exact ⟨level, layers, rfl, levelled, .refl layers, le_rfl, by simp, by simp⟩
  | cons edge remaining inductionHypothesis =>
    rw [List.forall_mem_cons] at subset
    have depends : DependsOn edges atom edge.1 := ⟨edge.2, subset.1⟩
    have childVisiting : Visiting edges layers edge.1 (marker - edge.2) := by
      intro visited isVisited
      have ofEdge (positive : 0 < edge.2) : UsesBonus edges atom :=
        ⟨atom, .refl, edge, subset.1, positive⟩
      obtain rfl | ⟨reaches, le, uses⟩ := visiting visited isVisited
      · exact ⟨.single depends, by omega, fun lt => ofEdge (by omega)⟩
      · refine ⟨reaches.tail depends, by omega, fun lt => ?_⟩
        by_cases positive : 0 < edge.2
        · exact (ofEdge positive).of_reaches reaches
        · exact uses (by omega)
    obtain ⟨edgeLevel, middle, call, middleLevelled, extended, valued⟩ :=
      finds edge.1 (marker - edge.2) layers (by omega) levelled childVisiting within enough
    have isKnown : layers atom ≠ unknownLayer := by
      unfold firstMarker at isMarker
      unfold unknownLayer
      omega
    have sameVisited (visited : Atom) (isVisited : middle visited ≤ firstMarker) :
        middle visited = layers visited := by
      by_cases unknown : layers visited = unknownLayer
      · have found := extended.found visited unknown
        unfold firstMarker at isVisited
        unfold unknownLayer at found
        omega
      · exact extended.known visited unknown
    obtain ⟨result, after, loop, afterLevelled, laterExtended, grows, edgesValued, uses⟩ :=
      inductionHypothesis subset.2 (max level (edgeLevel + edge.2)) middleLevelled
        ((extended.known atom isKnown).trans current)
        (fun visited isVisited => by
          have same := sameVisited visited isVisited
          rw [same] at isVisited ⊢
          exact visiting visited isVisited)
        (fun other unknown => by
          refine within other ?_
          by_contra otherKnown
          exact otherKnown (extended.known other otherKnown ▸ unknown))
        ((extended.unknownAtoms_card atoms).trans enough)
    refine ⟨result, after, ?_, afterLevelled, extended.trans laterExtended,
      (le_max_left _ _).trans grows, ?_, fun less => ?_⟩
    · rw [List.foldlM_cons]
      simp only [call, Option.bind_eq_bind, Option.bind_some, Option.pure_def]
      exact loop
    · rw [List.forall_mem_cons]
      exact ⟨⟨edgeLevel, laterExtended.valued valued, (le_max_right _ _).trans grows⟩, edgesValued⟩
    · by_cases later : max level (edgeLevel + edge.2) < result
      · exact uses later
      · -- the level comes from this edge
        by_cases positive : 0 < edge.2
        · exact ⟨atom, .refl, edge, subset.1, positive⟩
        · have isLevel : middle edge.1 = edgeLevel := by
            unfold Valued at valued
            omega
          exact (middleLevelled.usesBonus edge.1 (by omega)).of_dependsOn depends

theorem findLevel_known (recursion : RecursionFree edges) {fuel : ℕ} {atom : Atom} {marker : ℤ}
    {layers : Atom → ℤ} (isMarker : marker ≤ firstMarker)
    (visiting : Visiting edges layers atom marker) (known : layers atom ≠ unknownLayer) :
    ∃ level, findLevel edges fuel atom marker layers = some (level, layers) ∧
      Valued layers atom level := by
  unfold findLevel
  by_cases isFact : layers atom = noAxiom
  · exact ⟨0, if_pos isFact, .inr ⟨rfl, .inl isFact⟩⟩
  · rw [if_neg isFact]
    by_cases isVisited : layers atom ≤ firstMarker
    · -- a positive cycle: the marker is still the one of the atom
      obtain ⟨reaches, le, uses⟩ := visiting atom isVisited
      have sameMarker : layers atom = marker := by
        by_contra different
        exact recursion atom reaches (uses (by omega))
      exact ⟨0, if_pos sameMarker, .inr ⟨rfl, .inr isVisited⟩⟩
    · have nonneg : 0 ≤ layers atom := by
        unfold noAxiom at isFact
        unfold firstMarker at isVisited
        unfold unknownLayer at known
        omega
      have otherMarker : layers atom ≠ marker := by omega
      rw [if_neg otherMarker, if_neg isVisited, if_neg known]
      exact ⟨(layers atom).toNat, rfl, .inl (Int.toNat_of_nonneg nonneg).symm⟩

omit [DecidableEq Atom] in
/-- The edges of an atom after the loop over them. -/
theorem edge_settled (recursion : RecursionFree edges) {atom : Atom} {edge : Atom × ℕ}
    (isEdge : edge ∈ edges atom) {layers : Atom → ℤ} {edgeLevel result : ℕ}
    (valued : Valued layers edge.1 edgeLevel) (le : edgeLevel + edge.2 ≤ result)
    (visitedDepends : layers edge.1 ≤ firstMarker → edge.1 = atom ∨
      Relation.TransGen (DependsOn edges) edge.1 atom) :
    EdgeSettled edges layers result edge := by
  obtain isLevel | ⟨rfl, isFact | isVisited⟩ := valued
  · exact .finished (by omega) (by omega)
  · exact .noAxiom isFact (by omega)
  · have depends : DependsOn edges atom edge.1 := ⟨edge.2, isEdge⟩
    have cyclic : Relation.TransGen (DependsOn edges) edge.1 edge.1 := by
      obtain same | reaches := visitedDepends isVisited
      · exact .single (same ▸ same ▸ depends)
      · exact reaches.tail depends
    have free := recursion edge.1 cyclic
    refine .visited isVisited (Nat.eq_zero_of_not_pos fun positive => free ?_) free
    have uses : UsesBonus edges atom := ⟨atom, .refl, edge, isEdge, positive⟩
    obtain same | reaches := visitedDepends isVisited
    · exact same ▸ uses
    · exact uses.of_reaches reaches

/-- Finishing an atom keeps the other edges settled: an edge to it had level 0. -/
theorem EdgeSettled.finish {layers : Atom → ℤ} {atom : Atom} {level : ℤ} {edge : Atom × ℕ} {result : ℕ}
    (settled : EdgeSettled edges layers level edge) (visited : layers atom ≤ firstMarker)
    (nonneg : 0 ≤ level) (uses : 0 < result → UsesBonus edges atom) :
    EdgeSettled edges (Function.update layers atom (result : ℤ)) level edge := by
  by_cases same : edge.1 = atom
  · cases settled with
    | noAxiom isFact _ =>
      rw [same] at isFact
      unfold AxiomRules.noAxiom at isFact
      unfold firstMarker at visited
      omega
    | finished isFinished _ =>
      rw [same] at isFinished
      unfold firstMarker at visited
      omega
    | visited _ noBonus free =>
      have zero : result = 0 := Nat.eq_zero_of_not_pos fun positive => free (same ▸ uses positive)
      refine .finished ?_ ?_ <;> rw [same, Function.update_self] <;> omega
  · have unchanged : Function.update layers atom (result : ℤ) edge.1 = layers edge.1 :=
      Function.update_of_ne same _ _
    cases settled with
    | noAxiom isFact le => exact .noAxiom (unchanged.trans isFact) le
    | finished isFinished le => exact .finished (unchanged ▸ isFinished) (unchanged ▸ le)
    | visited isVisited noBonus free => exact .visited (unchanged ▸ isVisited) noBonus free

/-- Visiting an unknown atom unsettles nothing, since no edge to it is settled. -/
theorem EdgeSettled.visit {layers : Atom → ℤ} {atom : Atom} {level marker : ℤ} {edge : Atom × ℕ}
    (settled : EdgeSettled edges layers level edge) (unknown : layers atom = unknownLayer) :
    EdgeSettled edges (Function.update layers atom marker) level edge := by
  have different : edge.1 ≠ atom := by
    rintro same
    unfold unknownLayer at unknown
    cases settled with
    | noAxiom isFact _ =>
      unfold AxiomRules.noAxiom at isFact
      rw [same] at isFact
      omega
    | finished isFinished _ =>
      rw [same] at isFinished
      omega
    | visited isVisited _ _ =>
      unfold firstMarker at isVisited
      rw [same] at isVisited
      omega
  have unchanged : Function.update layers atom marker edge.1 = layers edge.1 :=
    Function.update_of_ne different _ _
  cases settled with
  | noAxiom isFact le => exact .noAxiom (unchanged.trans isFact) le
  | finished isFinished le => exact .finished (unchanged ▸ isFinished) (unchanged ▸ le)
  | visited isVisited noBonus free => exact .visited (unchanged ▸ isVisited) noBonus free

theorem Levelled.visit {layers : Atom → ℤ} {atom : Atom} {marker : ℤ}
    (levelled : Levelled edges layers) (isMarker : marker ≤ firstMarker)
    (unknown : layers atom = unknownLayer) :
    Levelled edges (Function.update layers atom marker) := by
  have negative : marker < 0 := by
    unfold firstMarker at isMarker
    omega
  constructor
  · intro other isFinished edge isEdge
    by_cases same : other = atom
    · subst same
      rw [Function.update_self] at isFinished
      omega
    · rw [Function.update_of_ne same] at isFinished ⊢
      exact (levelled.settled other isFinished edge isEdge).visit unknown
  · intro other positive
    by_cases same : other = atom
    · subst same
      rw [Function.update_self] at positive
      omega
    · rw [Function.update_of_ne same] at positive
      exact levelled.usesBonus other positive

theorem Levelled.finish {layers : Atom → ℤ} {atom : Atom} {result : ℕ}
    (levelled : Levelled edges layers) (visited : layers atom ≤ firstMarker)
    (settled : ∀ edge ∈ edges atom, EdgeSettled edges layers result edge)
    (uses : 0 < result → UsesBonus edges atom) :
    Levelled edges (Function.update layers atom (result : ℤ)) := by
  constructor
  · intro other isFinished edge isEdge
    by_cases same : other = atom
    · subst same
      rw [Function.update_self]
      exact (settled edge isEdge).finish visited (by omega) uses
    · rw [Function.update_of_ne same] at isFinished ⊢
      exact (levelled.settled other isFinished edge isEdge).finish visited isFinished uses
  · intro other positive
    by_cases same : other = atom
    · subst same
      rw [Function.update_self] at positive
      exact uses (by omega)
    · rw [Function.update_of_ne same] at positive
      exact levelled.usesBonus other positive

theorem unknownAtoms_visit {atoms : Finset Atom} {layers : Atom → ℤ} {atom : Atom} {marker : ℤ}
    (isMarker : marker ≤ firstMarker) (unknown : layers atom = unknownLayer) (member : atom ∈ atoms) :
    (unknownAtoms atoms (Function.update layers atom marker)).card <
      (unknownAtoms atoms layers).card := by
  have visited : Function.update layers atom marker atom ≠ unknownLayer := by
    rw [Function.update_self]
    unfold firstMarker at isMarker
    unfold unknownLayer
    omega
  refine Finset.card_lt_card (Finset.ssubset_iff_of_subset (fun other isUnknown => ?_) |>.mpr
    ⟨atom, Finset.mem_filter.mpr ⟨member, unknown⟩, fun isUnknown =>
      visited (Finset.mem_filter.mp isUnknown).2⟩)
  rw [unknownAtoms, Finset.mem_filter] at isUnknown ⊢
  have different : other ≠ atom := by
    rintro rfl
    exact visited isUnknown.2
  rwa [Function.update_of_ne different] at isUnknown

theorem findsLevel (recursion : RecursionFree edges) (atoms : Finset Atom) (fuel : ℕ) :
    FindsLevel edges atoms fuel := by
  induction fuel with
  | zero =>
    intro atom marker layers isMarker levelled visiting within enough
    have known : layers atom ≠ unknownLayer := by
      intro unknown
      have member : atom ∈ unknownAtoms atoms layers :=
        Finset.mem_filter.mpr ⟨within atom unknown, unknown⟩
      have positive := Finset.card_pos.mpr ⟨atom, member⟩
      omega
    obtain ⟨level, call, valued⟩ := findLevel_known recursion isMarker visiting known
    exact ⟨level, layers, call, levelled, .refl layers, valued⟩
  | succ fuel inductionHypothesis =>
    intro atom marker layers isMarker levelled visiting within enough
    by_cases unknown : layers atom = unknownLayer
    · have isVisited : ∀ visited, Function.update layers atom marker visited ≤ firstMarker →
          visited = atom ∨ Relation.TransGen (DependsOn edges) visited atom ∧
            marker ≤ Function.update layers atom marker visited ∧
              (marker < Function.update layers atom marker visited → UsesBonus edges visited) := by
        intro visited isVisited
        by_cases same : visited = atom
        · exact .inl same
        · rw [Function.update_of_ne same] at isVisited ⊢
          exact .inr (visiting visited isVisited)
      have stillWithin : ∀ other, Function.update layers atom marker other = unknownLayer →
          other ∈ atoms := by
        intro other isUnknown
        by_cases same : other = atom
        · exact same ▸ within atom unknown
        · rw [Function.update_of_ne same] at isUnknown
          exact within other isUnknown
      have fewer := unknownAtoms_visit isMarker unknown (within atom unknown)
      obtain ⟨result, after, loop, afterLevelled, extended, _, valued, uses⟩ :=
        foldlM_edges inductionHypothesis isMarker (fun _ isEdge => isEdge) 0
          (levelled.visit isMarker unknown) (Function.update_self ..) isVisited
          stillWithin (by omega)
      have markerKnown : Function.update layers atom marker atom ≠ unknownLayer := by
        rw [Function.update_self]
        unfold firstMarker at isMarker
        unfold unknownLayer
        omega
      have stillVisited : after atom = marker := by
        rw [extended.known atom markerKnown, Function.update_self]
      have settled : ∀ edge ∈ edges atom, EdgeSettled edges after result edge := by
        intro edge isEdge
        obtain ⟨edgeLevel, edgeValued, le⟩ := valued edge isEdge
        refine edge_settled recursion isEdge edgeValued le fun edgeVisited => ?_
        have wasVisited : Function.update layers atom marker edge.1 ≤ firstMarker := by
          by_cases wasUnknown : Function.update layers atom marker edge.1 = unknownLayer
          · have found := extended.found edge.1 wasUnknown
            unfold unknownLayer at found
            unfold firstMarker at edgeVisited
            omega
          · rwa [extended.known edge.1 wasUnknown] at edgeVisited
        exact (isVisited edge.1 wasVisited).imp id And.left
      refine ⟨result, Function.update after atom (result : ℤ), ?_,
        afterLevelled.finish (stillVisited ▸ isMarker) settled uses, ⟨?_, ?_⟩, .inl ?_⟩
      · have notFact : layers atom ≠ noAxiom := by
          rw [unknown]
          decide
        have notVisited : ¬ layers atom ≤ firstMarker := by
          rw [unknown]
          decide
        have notMarker : layers atom ≠ marker := fun same => notVisited (same ▸ isMarker)
        unfold findLevel
        rw [if_neg notFact, if_neg notMarker, if_neg notVisited, if_pos unknown]
        exact Option.bind_eq_some_iff.mpr ⟨(result, after), loop, rfl⟩
      · intro other isKnown
        have different : other ≠ atom := by
          rintro rfl
          exact isKnown unknown
        rw [Function.update_of_ne different, extended.known other (by
          rwa [Function.update_of_ne different]), Function.update_of_ne different]
      · intro other isUnknown
        by_cases same : other = atom
        · subst same
          rw [Function.update_self]
          exact .inr (by omega)
        · rw [Function.update_of_ne same]
          exact extended.found other (by rwa [Function.update_of_ne same])
      · rw [Function.update_self]
    · obtain ⟨level, call, valued⟩ := findLevel_known recursion isMarker visiting unknown
      exact ⟨level, layers, call, levelled, .refl layers, valued⟩

/-! ## All layers -/

/-- No atom is being visited. -/
def Idle (layers : Atom → ℤ) : Prop :=
  ∀ atom, firstMarker < layers atom

omit [DecidableEq Atom] in
theorem Idle.extends {before after : Atom → ℤ} (idle : Idle before) (extended : Extends before after) :
    Idle after := by
  intro atom
  by_cases unknown : before atom = unknownLayer
  · have found := extended.found atom unknown
    unfold unknownLayer at found
    unfold firstMarker
    omega
  · rw [extended.known atom unknown]
    exact idle atom

theorem foldlM_atoms (recursion : RecursionFree edges) {atoms : Finset Atom} {fuel : ℕ}
    (enough : atoms.card ≤ fuel) (remaining : List Atom) {layers : Atom → ℤ}
    (levelled : Levelled edges layers) (idle : Idle layers)
    (within : ∀ other, layers other = unknownLayer → other ∈ atoms) :
    ∃ after,
      remaining.foldlM
        (fun layers atom => do
          let (_, layers) ← findLevel edges fuel atom firstMarker layers
          return layers) layers = some after ∧
      Levelled edges after ∧ Idle after ∧ Extends layers after ∧
      ∀ atom ∈ remaining, after atom ≠ unknownLayer := by
  induction remaining generalizing layers with
  | nil => exact ⟨layers, rfl, levelled, idle, .refl layers, by simp⟩
  | cons atom remaining inductionHypothesis =>
    have visiting : Visiting edges layers atom firstMarker := by
      intro visited isVisited
      exact absurd (idle visited) (by omega)
    obtain ⟨level, middle, call, middleLevelled, extended, valued⟩ :=
      findsLevel recursion atoms fuel atom firstMarker layers le_rfl levelled visiting within
        ((Finset.card_filter_le _ _).trans enough)
    obtain ⟨after, loop, afterLevelled, afterIdle, laterExtended, known⟩ :=
      inductionHypothesis middleLevelled (idle.extends extended) fun other unknown => by
        refine within other ?_
        by_contra otherKnown
        exact otherKnown (extended.known other otherKnown ▸ unknown)
    refine ⟨after, ?_, afterLevelled, afterIdle, extended.trans laterExtended, ?_⟩
    · rw [List.foldlM_cons]
      simp only [call, Option.bind_eq_bind, Option.bind_some, Option.pure_def]
      exact loop
    · rw [List.forall_mem_cons]
      refine ⟨?_, known⟩
      have found := laterExtended.valued valued
      unfold Valued noAxiom firstMarker at found
      unfold unknownLayer
      omega

/-- Every atom with a changing axiom has a layer, above those that it depends on. -/
structure Layered (axioms : List (PropositionalAxiom Atom)) (axiomInit : List Atom)
    (layers : Atom → Option ℕ) : Prop where
  isSome : ∀ atom ∈ layeredAtoms axioms axiomInit, (layers atom).isSome
  isNone : ∀ atom, atom ∉ layeredAtoms axioms axiomInit → layers atom = none
  above : ∀ atom layer, layers atom = some layer → ∀ edge ∈ dependsOn axioms axiomInit atom,
    ∀ below, layers edge.1 = some below → below + edge.2 ≤ layer

theorem computeAxiomLayers_layered {axioms : List (PropositionalAxiom Atom)} {axiomInit : List Atom}
    (recursion : RecursionFree (dependsOn axioms axiomInit)) :
    ∃ layers, computeAxiomLayers axioms axiomInit = some layers ∧
      Layered axioms axiomInit layers := by
  let atoms := layeredAtoms axioms axiomInit
  let start (atom : Atom) : ℤ := if atom ∈ atoms then unknownLayer else noAxiom
  have start_of_mem {atom : Atom} (member : atom ∈ atoms) : start atom = unknownLayer := if_pos member
  have start_of_not_mem {atom : Atom} (missing : atom ∉ atoms) : start atom = noAxiom := if_neg missing
  have negative (atom : Atom) : firstMarker < start atom ∧ start atom < 0 := by
    by_cases member : atom ∈ atoms
    · rw [start_of_mem member]
      decide
    · rw [start_of_not_mem member]
      decide
  have levelled : Levelled (dependsOn axioms axiomInit) start := by
    constructor
    · intro atom isFinished
      exact absurd isFinished (not_le.mpr (negative atom).2)
    · intro atom positive
      exact absurd positive (not_lt.mpr (negative atom).2.le)
  have within (atom : Atom) (unknown : start atom = unknownLayer) : atom ∈ atoms.toFinset := by
    rw [List.mem_toFinset]
    by_contra missing
    rw [start_of_not_mem missing] at unknown
    cases unknown
  obtain ⟨after, loop, afterLevelled, idle, extended, known⟩ :=
    foldlM_atoms recursion (List.toFinset_card_le atoms) atoms levelled
      (fun atom => (negative atom).1) within
  have layer_iff {atom : Atom} {layer : ℕ} :
      (if 0 ≤ after atom then some (after atom).toNat else none) = some layer ↔
        after atom = layer := by
    by_cases finished : 0 ≤ after atom
    · rw [if_pos finished, Option.some.injEq]
      omega
    · rw [if_neg finished]
      constructor
      · intro impossible
        cases impossible
      · omega
  refine ⟨fun atom => if 0 ≤ after atom then some (after atom).toNat else none,
    Option.bind_eq_some_iff.mpr ⟨after, loop, rfl⟩, ?_, ?_, ?_⟩
  · intro atom member
    have finished := (extended.found atom (start_of_mem member)).resolve_left (known atom member)
    rw [if_pos finished]
    rfl
  · intro atom missing
    have isFact := start_of_not_mem missing
    rw [extended.known atom (by rw [isFact]; decide), isFact]
    exact if_neg (by decide)
  · intro atom layer isLayer edge isEdge below isBelow
    rw [layer_iff] at isLayer isBelow
    cases afterLevelled.settled atom (by omega) edge isEdge with
    | noAxiom isFact _ =>
      unfold AxiomRules.noAxiom at isFact
      omega
    | finished _ le => omega
    | visited isVisited _ _ => exact absurd (idle edge.1) (by omega)

end CutPlan.Translate.AxiomRules
