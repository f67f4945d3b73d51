import CutPlan.Translate.GreedyJoin
import CutPlan.Translate.SplitRules

/-! # Splitting into joins

The greedy join splits a rule whose conditions are connected by common variables.  A cheapest pair of conditions has
a common variable: the smallest condition shares a variable with another one, and that pair is cheaper than
every pair without a common variable.
-/

set_option linter.unusedSectionVars false

namespace CutPlan.Translate

open CutPlan.Lib

variable {Pred Var Obj : Type} [DecidableEq Pred] [DecidableEq Var] [DecidableEq Obj]

/-! ## Connected conditions -/

/-- However the atoms are divided, the two parts have a common variable. -/
def Connected (atoms : List (SymbolicAtom Pred Var Obj)) : Prop :=
  ∀ first second, atoms.Perm (first ++ second) → first ≠ [] → second ≠ [] →
    ∃ name, OccursIn name first ∧ OccursIn name second

theorem Connected.perm {atoms reordered : List (SymbolicAtom Pred Var Obj)} (connected : Connected atoms)
    (same : atoms.Perm reordered) : Connected reordered := fun first second isDivision =>
  connected first second (same.trans isDivision)

@[simp] theorem occursIn_cons {name : Var} {atom : SymbolicAtom Pred Var Obj}
    {atoms : List (SymbolicAtom Pred Var Obj)} :
    OccursIn name (atom :: atoms) ↔ .var name ∈ atom.args ∨ OccursIn name atoms := by
  simp [OccursIn]

@[simp] theorem not_occursIn_nil {name : Var} :
    ¬ OccursIn name ([] : List (SymbolicAtom Pred Var Obj)) := by
  simp [OccursIn]

theorem occursIn_append {name : Var} {first second : List (SymbolicAtom Pred Var Obj)} :
    OccursIn name (first ++ second) ↔ OccursIn name first ∨ OccursIn name second := by
  simp [OccursIn, or_and_right, exists_or]

theorem occursIn_perm {name : Var} {first second : List (SymbolicAtom Pred Var Obj)}
    (same : first.Perm second) : OccursIn name first ↔ OccursIn name second := by
  simp [OccursIn, same.mem_iff]

/-- Atoms may be merged into one that keeps the variables of the other atoms. -/
theorem Connected.merge {merged rest : List (SymbolicAtom Pred Var Obj)}
    {joint : SymbolicAtom Pred Var Obj} (connected : Connected (merged ++ rest)) (someMerged : merged ≠ [])
    (keeps : ∀ name, OccursIn name merged → OccursIn name rest → .var name ∈ joint.args) : Connected (joint :: rest) := by
  -- The part with the merged atom may be the first or the second one.
  have withJoint : ∀ (first second : List (SymbolicAtom Pred Var Obj)), rest.Perm (first ++ second) →
      second ≠ [] → ∃ name, OccursIn name (joint :: first) ∧ OccursIn name second := by
    intro first second isDivision someSecond
    have isAll : (merged ++ rest).Perm (merged ++ first ++ second) := by
      rw [List.append_assoc]
      exact isDivision.append_left merged
    obtain ⟨name, inFirst, inSecond⟩ := connected _ second isAll (by simp [someMerged]) someSecond
    refine ⟨name, ?_, inSecond⟩
    rw [occursIn_cons]
    cases occursIn_append.mp inFirst with
    | inr later => exact Or.inr later
    | inl isMerged =>
      exact Or.inl (keeps name isMerged ((occursIn_perm isDivision).mpr (occursIn_append.mpr (Or.inr inSecond))))
  intro first second isDivision someFirst someSecond
  have isElement : joint ∈ first ++ second := isDivision.mem_iff.mp List.mem_cons_self
  cases List.mem_append.mp isElement with
  | inl inFirst =>
    have split := List.perm_cons_erase inFirst
    have isRest : rest.Perm (first.erase joint ++ second) :=
      (isDivision.trans (split.append_right second)).cons_inv
    obtain ⟨name, inPart, inSecond⟩ := withJoint _ second isRest someSecond
    exact ⟨name, (occursIn_perm split).mpr inPart, inSecond⟩
  | inr inSecond =>
    have split := List.perm_cons_erase inSecond
    have isRest : rest.Perm (second.erase joint ++ first) := by
      have swapped := isDivision.trans (List.perm_append_comm.trans (split.append_right first))
      exact swapped.cons_inv
    obtain ⟨name, inPart, inFirst⟩ := withJoint _ first isRest someFirst
    exact ⟨name, inFirst, (occursIn_perm split).mpr inPart⟩

/-! ## A cheapest pair has a common variable -/

def varCount (atom : SymbolicAtom Pred Var Obj) : ℕ := (variablesOf atom).dedup.length

def sharedCount (first second : SymbolicAtom Pred Var Obj) : ℕ :=
  ((variablesOf first).dedup.filter (· ∈ (variablesOf second).dedup)).length

theorem sharedCount_comm (first second : SymbolicAtom Pred Var Obj) :
    sharedCount first second = sharedCount second first := by
  apply List.Perm.length_eq
  rw [List.perm_ext_iff_of_nodup ((List.nodup_dedup _).filter _) ((List.nodup_dedup _).filter _)]
  intro name
  simp [and_comm]

theorem computeJoinCost_fst (left right : SymbolicAtom Pred Var Obj) :
    (ofLex (computeJoinCost left right)).1 = (min (varCount left) (varCount right) : ℤ) - sharedCount left right := by
  simp only [computeJoinCost]
  by_cases larger : (variablesOf right).dedup.length < (variablesOf left).dedup.length
  · simp only [larger, if_true, ofLex_toLex]
    rw [sharedCount_comm]
    simp only [varCount, sharedCount]
    omega
  · simp only [larger, if_false, ofLex_toLex]
    simp only [varCount, sharedCount]
    omega

theorem fst_le_of_le {first second : JoinCost} (le : first ≤ second) : (ofLex first).1 ≤ (ofLex second).1 := by
  rcases Prod.Lex.le_iff.mp le with less | ⟨same, _⟩
  · exact less.le
  · exact same.le

theorem sharedCount_pos {first second : SymbolicAtom Pred Var Obj} :
    0 < sharedCount first second ↔ ∃ name, .var name ∈ first.args ∧ .var name ∈ second.args := by
  rw [sharedCount, List.length_pos_iff_exists_mem]
  simp

theorem exists_shared_of_cheapest {joinees : List (SymbolicAtom Pred Var Obj)} (connected : Connected joinees)
    (canJoin : 2 ≤ joinees.length) {left right : SymbolicAtom Pred Var Obj} (isLeft : left ∈ joinees)
    (isRight : right ∈ joinees)
    (least : ∀ (i j : ℕ) first second, j < i → joinees[i]? = some first → joinees[j]? = some second →
      computeJoinCost left right ≤ computeJoinCost first second) :
    ∃ name, .var name ∈ left.args ∧ .var name ∈ right.args := by
  -- A condition with the fewest variables shares one with another condition.
  obtain ⟨i, inRange, fewest⟩ := Finset.exists_min_image (Finset.range joinees.length)
    (fun i => ((joinees[i]?).map varCount).getD 0) ⟨0, by simp; omega⟩
  rw [Finset.mem_range] at inRange
  have fewestVars : ∀ atom ∈ joinees, varCount joinees[i] ≤ varCount atom := by
    intro atom member
    obtain ⟨j, inRange', rfl⟩ := List.getElem_of_mem member
    simpa [inRange, inRange'] using fewest j (Finset.mem_range.mpr inRange')
  have isDivision : joinees.Perm ([joinees[i]] ++ joinees.eraseIdx i) := (List.getElem_cons_eraseIdx_perm inRange).symm
  have someOther : joinees.eraseIdx i ≠ [] := by
    intro isEmpty
    have := List.length_eraseIdx_of_lt inRange
    rw [isEmpty, List.length_nil] at this
    omega
  obtain ⟨name, inSmallest, other, isOther, inOther⟩ := connected _ _ isDivision (by simp) someOther
  have inSmallest : Term.var name ∈ joinees[i].args := by simpa using inSmallest
  obtain ⟨j, inErased, rfl⟩ := List.getElem_of_mem isOther
  have isPair : computeJoinCost left right ≤ computeJoinCost joinees[i] (joinees.eraseIdx i)[j] ∨
      computeJoinCost left right ≤ computeJoinCost (joinees.eraseIdx i)[j] joinees[i] := by
    have atOther := List.getElem?_eq_getElem inErased
    have atSmallest := List.getElem?_eq_getElem inRange
    rw [List.getElem?_eraseIdx] at atOther
    by_cases before : j < i
    · rw [if_pos before] at atOther
      exact Or.inl (least i j _ _ before atSmallest atOther)
    · rw [if_neg before] at atOther
      exact Or.inr (least (j + 1) i _ _ (by omega) atOther atSmallest)
  have shared : 0 < sharedCount joinees[i] (joinees.eraseIdx i)[j] := sharedCount_pos.mpr ⟨name, inSmallest, inOther⟩
  have isMember : (joinees.eraseIdx i)[j] ∈ joinees := List.mem_of_mem_eraseIdx isOther
  have smallest := fewestVars _ isMember
  have leftLarge := fewestVars left isLeft
  have rightLarge := fewestVars right isRight
  rw [← sharedCount_pos]
  rcases isPair with cheaper | cheaper
  · have firstCost := fst_le_of_le cheaper
    rw [computeJoinCost_fst, computeJoinCost_fst] at firstCost
    omega
  · have firstCost := fst_le_of_le cheaper
    rw [computeJoinCost_fst, computeJoinCost_fst, sharedCount_comm (joinees.eraseIdx i)[j]] at firstCost
    omega

/-! ## One join -/

theorem nodup_variablesOf {predicate : Pred} {args : List (Term Var Obj)} (distinct : args.Nodup) :
    (variablesOf (⟨predicate, args⟩ : SymbolicAtom Pred Var Obj)).Nodup := by
  apply distinct.filterMap
  intro first second name isFirst isSecond
  cases first with
  | object known => cases isFirst
  | var firstName =>
    cases second with
    | object known => cases isSecond
    | var secondName =>
      cases isFirst
      cases isSecond
      rfl

/-- The variables of a joinee that are needed. -/
structure Projected (needed : List (Term Var Obj)) (joinee projected : SymbolicAtom Pred Var Obj) :
    Prop where
  names : ∀ name, name ∈ variablesOf projected ↔ name ∈ variablesOf joinee ∧ .var name ∈ needed
  distinct : (variablesOf projected).Nodup

variable {newName : ℕ → Pred} {le : Term Var Obj → Term Var Obj → Bool}
  {needed : List (Term Var Obj)} {joinee effect left right joint : SymbolicAtom Pred Var Obj}
  {others : List (SymbolicAtom Pred Var Obj)} {count nextCount : ℕ}
  {rules : List (TypedRule Pred Var Obj)}

theorem projectJoinee_spec (le : Term Var Obj → Term Var Obj → Bool) (needed : List (Term Var Obj))
    (count : ℕ) (injective : Function.Injective newName) (distinct : (variablesOf joinee).Nodup)
    (isNeeded : ∀ name ∈ variablesOf joinee, OccursIn name others ∨ .var name ∈ effect.args → .var name ∈ needed) :
    Projected needed joinee (projectJoinee newName le needed joinee count).1 ∧
      count ≤ (projectJoinee newName le needed joinee count).2.2 ∧
      ∀ rules nextCount, Splits newName {⟨(projectJoinee newName le needed joinee count).1 :: others, effect⟩}
          (projectJoinee newName le needed joinee count).2.2 rules nextCount →
        Splits newName {⟨joinee :: others, effect⟩} count
          ((projectJoinee newName le needed joinee count).2.1 ++ rules) nextCount := by
  simp only [projectJoinee]
  by_cases unchanged : joinee.args.dedup.filter (· ∈ needed) = joinee.args.dedup
  · simp only [unchanged, if_true, List.nil_append, le_rfl, true_and]
    refine ⟨⟨fun name => ?_, distinct⟩, fun rules nextCount splits => splits⟩
    refine (and_iff_left_of_imp fun occurs => ?_).symm
    have kept := List.filter_eq_self.mp unchanged (.var name) (List.mem_dedup.mpr (mem_variablesOf.mp occurs))
    simpa using kept
  · simp only [unchanged, if_false]
    have names : ∀ name, name ∈ variablesOf (⟨newName count, (joinee.args.dedup.filter (· ∈ needed)).mergeSort le⟩ :
        SymbolicAtom Pred Var Obj) ↔ name ∈ variablesOf joinee ∧ .var name ∈ needed := by
      intro name
      simp
    have distinctArgs : (variablesOf (⟨newName count, (joinee.args.dedup.filter (· ∈ needed)).mergeSort le⟩ :
        SymbolicAtom Pred Var Obj)).Nodup := by
      apply nodup_variablesOf
      rw [(List.mergeSort_perm _ _).nodup_iff]
      exact (List.nodup_dedup _).filter _
    refine ⟨⟨names, distinctArgs⟩, Nat.le_succ count, fun rules nextCount splits => ?_⟩
    refine Splits.fold others injective ?_ rfl ?_ rfl ?_ splits
    · refine ⟨rfl, by simp, by simp, fun name inPart elsewhere => ?_⟩
      have occurs : name ∈ variablesOf joinee := by simpa using inPart
      exact mem_variablesOf.mp ((names name).mpr ⟨occurs, isNeeded name occurs elsewhere⟩)
    · refine ⟨distinctArgs, by simpa using distinct, fun name occurs => ?_, by simp⟩
      simpa using ((names name).mp occurs).1
    · intro keepsShared
      refine ⟨List.pairwise_singleton _ _, ?_⟩
      obtain ⟨withOthers, othersKeep⟩ := List.pairwise_cons.mp keepsShared
      refine List.pairwise_cons.mpr ⟨fun other isOther name inAux inOther => ?_, othersKeep⟩
      exact withOthers other isOther name ((names name).mp inAux).1 inOther

/-- What the rule for a join has to keep. -/
structure Joins (left right joint : SymbolicAtom Pred Var Obj)
    (others : List (SymbolicAtom Pred Var Obj)) (effect : SymbolicAtom Pred Var Obj) : Prop where
  distinctLeft : (variablesOf left).Nodup
  distinctRight : (variablesOf right).Nodup
  shared : ∃ name, name ∈ variablesOf left ∧ name ∈ variablesOf right
  kept : ∀ name, name ∈ variablesOf left ∨ name ∈ variablesOf right →
    name ∈ variablesOf left ∧ name ∈ variablesOf right ∨ OccursIn name others ∨ name ∈ variablesOf effect
  distinct : (variablesOf joint).Nodup
  names : ∀ name, name ∈ variablesOf joint ↔
    (name ∈ variablesOf left ∨ name ∈ variablesOf right) ∧ (OccursIn name others ∨ name ∈ variablesOf effect)

theorem Splits.join (injective : Function.Injective newName) (joins : Joins left right joint others effect)
    (isNew : joint.predicate = newName count)
    (splits : Splits newName {⟨joint :: others, effect⟩} (count + 1) rules nextCount) :
    Splits newName {⟨left :: right :: others, effect⟩} count (⟨.join, ⟨[left, right], joint⟩⟩ :: rules) nextCount := by
  refine Splits.fold others injective ?_ isNew ?_ ?_ ?_ splits
  · refine ⟨rfl, by simp [or_assoc], by simp, fun name inPart elsewhere => ?_⟩
    rw [← mem_variablesOf]
    exact (joins.names name).mpr ⟨by simpa using inPart, elsewhere.imp_right mem_variablesOf.mpr⟩
  · refine ⟨joins.distinct, ?_, fun name occurs => ?_, by simp⟩
    · simpa using ⟨joins.distinctLeft, joins.distinctRight⟩
    · simpa using ((joins.names name).mp occurs).1
  · refine convertRule_join joins.distinct joins.shared ?_ fun name occurs => ((joins.names name).mp occurs).1
    intro name occurs
    exact (joins.kept name occurs).imp_right fun elsewhere => (joins.names name).mpr ⟨occurs, elsewhere⟩
  · intro keepsShared
    obtain ⟨withLeft, rest⟩ := List.pairwise_cons.mp keepsShared
    obtain ⟨withRight, othersKeep⟩ := List.pairwise_cons.mp rest
    constructor
    · refine List.pairwise_pair.mpr fun name inLeft inRight => ?_
      have inEffect := withLeft right List.mem_cons_self name inLeft inRight
      exact (joins.names name).mpr ⟨Or.inl inLeft, Or.inr inEffect⟩
    · refine List.pairwise_cons.mpr ⟨fun other isOther name inJoint inOther => ?_, othersKeep⟩
      cases ((joins.names name).mp inJoint).1 with
      | inl inLeft => exact withLeft other (List.mem_cons_of_mem _ isOther) name inLeft inOther
      | inr inRight => exact withRight other isOther name inRight inOther

/-- The last join has the effect of the rule. -/
theorem Splits.lastJoin (joins : Joins left right joint [] effect) (distinct : (variablesOf effect).Nodup)
    (bound : ∀ name ∈ variablesOf effect, name ∈ variablesOf left ∨ name ∈ variablesOf right) :
    Splits newName {⟨[left, right], effect⟩} count [⟨.join, ⟨[left, right], effect⟩⟩] count := by
  have normal : NormalRule (⟨[left, right], effect⟩ : DatalogRule Pred Var Obj) := by
    refine ⟨distinct, ?_, fun name occurs => ?_, by simp⟩
    · simpa using ⟨joins.distinctLeft, joins.distinctRight⟩
    · simpa using bound name occurs
  have converts : (convertRule (⟨.join, ⟨[left, right], effect⟩⟩ : TypedRule Pred Var Obj)).isSome = true := by
    refine convertRule_join distinct joins.shared (fun name occurs => ?_) bound
    exact (joins.kept name occurs).imp_right fun elsewhere => elsewhere.resolve_left not_occursIn_nil
  let typed : TypedRule Pred Var Obj := ⟨.join, ⟨[left, right], effect⟩⟩
  exact (Splits.single normal converts : Splits newName {typed.rule} count [typed] count)

/-! ## The joins of a rule -/

/-- The matrix has the conditions that are left, and the tracker counts their variables and those of the effect. -/
structure Joining (effect : SymbolicAtom Pred Var Obj) (matrix : CostMatrix Pred Var Obj)
    (occurrences : OccurrencesTracker Var) : Prop where
  tabulated : matrix.Tabulated
  tracks : occurrences.Tracks (effect :: matrix.joinees)
  distinct : ∀ joinee ∈ matrix.joinees, (variablesOf joinee).Nodup
  bound : ∀ name ∈ variablesOf effect, OccursIn name matrix.joinees
  connected : Connected matrix.joinees

/-- One round of the loop: the projections, the join, and what is left for the other rounds. -/
structure Round (newName : ℕ → Pred) (le : Term Var Obj → Term Var Obj → Bool)
    (effect : SymbolicAtom Pred Var Obj) (matrix : CostMatrix Pred Var Obj)
    (occurrences : OccurrencesTracker Var) (count : ℕ) (left right joint : SymbolicAtom Pred Var Obj)
    (rest : CostMatrix Pred Var Obj) (nextOccurrences : OccurrencesTracker Var) (joinCount : ℕ)
    (projections : List (TypedRule Pred Var Obj)) : Prop where
  joins : Joins left right joint rest.joinees effect
  isNew : joint.predicate = newName joinCount
  length : matrix.joinees.length = rest.joinees.length + 2
  boundPair : rest.joinees = [] → ∀ name ∈ variablesOf effect, name ∈ variablesOf left ∨ name ∈ variablesOf right
  next : Joining effect (rest.addEntry joint) nextOccurrences
  loop : ∀ fuel, joinLoop newName le (fuel + 1) matrix occurrences count =
    (projections ++ ⟨.join, ⟨[left, right], joint⟩⟩ ::
      (joinLoop newName le fuel (rest.addEntry joint) nextOccurrences (joinCount + 1)).1,
      (joinLoop newName le fuel (rest.addEntry joint) nextOccurrences (joinCount + 1)).2)
  splits : ∀ rules nextCount, Splits newName {⟨left :: right :: rest.joinees, effect⟩} joinCount rules nextCount →
    Splits newName {⟨matrix.joinees, effect⟩} count (projections ++ rules) nextCount

theorem mem_effectVars {occurrences : OccurrencesTracker Var} {atoms : List (SymbolicAtom Pred Var Obj)}
    (tracks : occurrences.Tracks atoms) {name : Var} :
    .var name ∈ effectVars occurrences left right ↔
      (name ∈ variablesOf left ∨ name ∈ variablesOf right) ∧ OccursIn name atoms := by
  simp [effectVars, tracks.isSome_iff]

/-- The variables that the effect of a join has, and those that its conditions have to keep. -/
structure Kept (left right : SymbolicAtom Pred Var Obj)
    (others : List (SymbolicAtom Pred Var Obj)) (effect : SymbolicAtom Pred Var Obj)
    (vars needed : List (Term Var Obj)) : Prop where
  distinct : vars.Nodup
  mem_vars : ∀ name, .var name ∈ vars ↔
    (name ∈ variablesOf left ∨ name ∈ variablesOf right) ∧ (OccursIn name others ∨ name ∈ variablesOf effect)
  mem_needed : ∀ name, .var name ∈ needed ↔ .var name ∈ vars ∨ name ∈ variablesOf left ∧ name ∈ variablesOf right

theorem kept_of_tracks {occurrences : OccurrencesTracker Var} (tracks : occurrences.Tracks (effect :: others)) :
    Kept left right others effect (effectVars occurrences left right)
      (effectVars occurrences left right ++ left.args.filter (· ∈ right.args)) := by
  constructor
  · exact (List.nodup_dedup _).filter _
  · intro name
    refine (mem_effectVars tracks).trans (and_congr_right fun _ => ?_)
    rw [occursIn_cons, ← mem_variablesOf]
    exact or_comm
  · intro name
    simp

namespace Kept

variable {vars : List (Term Var Obj)} {projectedLeft projectedRight : SymbolicAtom Pred Var Obj}

theorem needed_left (kept : Kept left right others effect vars needed) :
    ∀ name ∈ variablesOf left, OccursIn name (right :: others) ∨ .var name ∈ effect.args → .var name ∈ needed := by
  intro name occurs elsewhere
  rw [occursIn_cons, ← mem_variablesOf, ← mem_variablesOf] at elsewhere
  rw [kept.mem_needed, kept.mem_vars]
  tauto

theorem needed_right (kept : Kept left right others effect vars needed) (isLeft : Projected needed left projectedLeft) :
    ∀ name ∈ variablesOf right, OccursIn name (projectedLeft :: others) ∨ .var name ∈ effect.args →
      .var name ∈ needed := by
  intro name occurs elsewhere
  rw [occursIn_cons, ← mem_variablesOf, ← mem_variablesOf, isLeft.names] at elsewhere
  rw [kept.mem_needed, kept.mem_vars]
  tauto

theorem mem_joint (predicate : Pred) (le : Term Var Obj → Term Var Obj → Bool) (name : Var) :
    name ∈ variablesOf (⟨predicate, vars.mergeSort le⟩ : SymbolicAtom Pred Var Obj) ↔ .var name ∈ vars := by
  simp

theorem joins (kept : Kept left right others effect vars needed) (isLeft : Projected needed left projectedLeft)
    (isRight : Projected needed right projectedRight) (shared : ∃ name, name ∈ variablesOf left ∧ name ∈ variablesOf right)
    (predicate : Pred) (le : Term Var Obj → Term Var Obj → Bool) :
    Joins projectedLeft projectedRight ⟨predicate, vars.mergeSort le⟩ others effect := by
  constructor
  · exact isLeft.distinct
  · exact isRight.distinct
  · obtain ⟨name, inLeft, inRight⟩ := shared
    have isNeeded := (kept.mem_needed name).mpr (Or.inr ⟨inLeft, inRight⟩)
    exact ⟨name, (isLeft.names name).mpr ⟨inLeft, isNeeded⟩, (isRight.names name).mpr ⟨inRight, isNeeded⟩⟩
  · intro name
    simp only [isLeft.names, isRight.names, kept.mem_needed, kept.mem_vars]
    tauto
  · apply nodup_variablesOf
    rw [(List.mergeSort_perm _ _).nodup_iff]
    exact kept.distinct
  · intro name
    simp only [mem_joint, isLeft.names, isRight.names, kept.mem_needed, kept.mem_vars]
    tauto

/-- The variables of the effect that the pair has are kept by the projections. -/
theorem keeps_effect (kept : Kept left right others effect vars needed) (isLeft : Projected needed left projectedLeft)
    (isRight : Projected needed right projectedRight) {name : Var} (inEffect : name ∈ variablesOf effect)
    (inPair : name ∈ variablesOf left ∨ name ∈ variablesOf right) :
    name ∈ variablesOf projectedLeft ∨ name ∈ variablesOf projectedRight := by
  simp only [isLeft.names, isRight.names, kept.mem_needed, kept.mem_vars]
  tauto

end Kept

section Rounds

variable {matrix rest : CostMatrix Pred Var Obj} {occurrences : OccurrencesTracker Var}

theorem joinLoop_succ (newName : ℕ → Pred) (le : Term Var Obj → Term Var Obj → Bool)
    (occurrences : OccurrencesTracker Var) (count : ℕ)
    (isPair : matrix.removeMinPair = some (left, right, rest)) (fuel : ℕ) :
    let remaining := (occurrences.update left (-1)).update right (-1)
    let vars := effectVars remaining left right
    let needed := vars ++ left.args.filter (· ∈ right.args)
    let leftProjection := projectJoinee newName le needed left count
    let rightProjection := projectJoinee newName le needed right leftProjection.2.2
    let joint : SymbolicAtom Pred Var Obj := ⟨newName rightProjection.2.2, vars.mergeSort le⟩
    let later := joinLoop newName le fuel (rest.addEntry joint) (remaining.update joint 1) (rightProjection.2.2 + 1)
    joinLoop newName le (fuel + 1) matrix occurrences count =
      (leftProjection.2.1 ++ rightProjection.2.1 ++
        ⟨.join, ⟨[leftProjection.1, rightProjection.1], joint⟩⟩ :: later.1, later.2) := by
  rw [joinLoop, isPair]

/-- The joint condition takes the place of the pair. -/
theorem Joining.next {remaining : OccurrencesTracker Var} (joining : Joining effect matrix occurrences)
    (tabulated : rest.Tabulated) (tracks : remaining.Tracks (effect :: rest.joinees))
    (isPerm : matrix.joinees.Perm (left :: right :: rest.joinees)) (distinct : (variablesOf joint).Nodup)
    (vars : ∀ name, name ∈ variablesOf joint ↔ (name ∈ variablesOf left ∨ name ∈ variablesOf right) ∧
      (OccursIn name rest.joinees ∨ name ∈ variablesOf effect)) :
    Joining effect (rest.addEntry joint) (remaining.update joint 1) := by
  have isMatrix : (rest.addEntry joint).joinees = rest.joinees ++ [joint] := rfl
  refine ⟨tabulated.addEntry joint, ?_, ?_, ?_, ?_⟩ <;> rw [isMatrix]
  · refine (tracks.add joint).perm ?_
    exact (List.Perm.swap effect joint _).trans ((List.perm_append_singleton joint _).symm.cons effect)
  · intro joinee member
    cases List.mem_append.mp member with
    | inl isOther => exact joining.distinct joinee (isPerm.mem_iff.mpr (by simp [isOther]))
    | inr isJoint => rwa [List.mem_singleton.mp isJoint]
  · intro name inEffect
    have isBound := (occursIn_perm isPerm).mp (joining.bound name inEffect)
    rw [occursIn_append, occursIn_cons, ← mem_variablesOf, vars]
    rw [occursIn_cons, occursIn_cons, ← mem_variablesOf, ← mem_variablesOf] at isBound
    tauto
  · have isMerged : Connected ([left, right] ++ rest.joinees) := joining.connected.perm isPerm
    refine Connected.perm ?_ (List.perm_append_singleton joint _).symm
    refine isMerged.merge (by simp) fun name inPair inRest => ?_
    rw [← mem_variablesOf, vars]
    exact ⟨by simpa using inPair, Or.inl inRest⟩

theorem Joining.exists_round (le : Term Var Obj → Term Var Obj → Bool) (count : ℕ)
    (injective : Function.Injective newName) (joining : Joining effect matrix occurrences)
    (canJoin : 2 ≤ matrix.joinees.length) :
    ∃ left right joint rest nextOccurrences joinCount projections,
      Round newName le effect matrix occurrences count left right joint rest nextOccurrences joinCount projections := by
  obtain ⟨left, right, rest, isPair, tabulated, isPerm, least⟩ := joining.tabulated.exists_removeMinPair canJoin
  have isLeft : left ∈ matrix.joinees := isPerm.mem_iff.mpr List.mem_cons_self
  have isRight : right ∈ matrix.joinees := isPerm.mem_iff.mpr (by simp)
  obtain ⟨common, inLeft, inRight⟩ := exists_shared_of_cheapest joining.connected canJoin isLeft isRight least
  -- After the updates the tracker counts the effect and the other conditions.
  have tracksAll : occurrences.Tracks (left :: right :: effect :: rest.joinees) := by
    refine joining.tracks.perm ((isPerm.cons effect).trans ?_)
    exact (List.Perm.swap left effect _).trans ((List.Perm.swap right effect _).cons left)
  have tracks := tracksAll.remove.remove
  let vars := effectVars ((occurrences.update left (-1)).update right (-1)) left right
  let needed := vars ++ left.args.filter (· ∈ right.args)
  have kept : Kept left right rest.joinees effect vars needed := kept_of_tracks tracks
  have loop := joinLoop_succ newName le occurrences count isPair
  have ⟨projectedLeft, _, splitsLeft⟩ :=
    projectJoinee_spec le needed count injective (joining.distinct left isLeft) kept.needed_left
  have ⟨projectedRight, _, splitsRight⟩ :=
    projectJoinee_spec le needed (projectJoinee newName le needed left count).2.2 injective
      (joining.distinct right isRight) (kept.needed_right projectedLeft)
  have joins := kept.joins projectedLeft projectedRight ⟨common, mem_variablesOf.mpr inLeft, mem_variablesOf.mpr inRight⟩
    (newName (projectJoinee newName le needed right (projectJoinee newName le needed left count).2.2).2.2) le
  refine ⟨_, _, _, rest, _, _, _, joins, rfl, by simpa using isPerm.length_eq, ?_, ?_, loop, ?_⟩
  · intro isEmpty name inEffect
    have isBound := (occursIn_perm isPerm).mp (joining.bound name inEffect)
    simp only [isEmpty, occursIn_cons, not_occursIn_nil, or_false, ← mem_variablesOf] at isBound
    exact kept.keeps_effect projectedLeft projectedRight inEffect isBound
  · apply joining.next tabulated tracks isPerm joins.distinct
    intro name
    rw [Kept.mem_joint, kept.mem_vars]
  · intro rules nextCount splits
    rw [List.append_assoc]
    refine Splits.perm injective isPerm (splitsLeft _ _ ?_)
    exact Splits.perm injective (List.Perm.swap _ _ _) (splitsRight _ _ (Splits.perm injective (List.Perm.swap _ _ _) splits))

end Rounds

section Loop

variable {matrix : CostMatrix Pred Var Obj} {occurrences : OccurrencesTracker Var}

theorem joinLoop_of_single (newName : ℕ → Pred) (le : Term Var Obj → Term Var Obj → Bool)
    (occurrences : OccurrencesTracker Var) (count : ℕ) (tabulated : matrix.Tabulated) (isLast : matrix.joinees.length ≤ 1) (fuel : ℕ) :
    joinLoop newName le fuel matrix occurrences count = ([], count) := by
  have noEntry : matrix.entries = [] := by
    rw [List.eq_nil_iff_forall_not_mem]
    rintro ⟨cost, i, j⟩ isEntry
    obtain ⟨less, left, right, isLeft, _⟩ := tabulated.mem_entries.mp isEntry
    have := (List.getElem?_eq_some_iff.mp isLeft).1
    omega
  have noPair : matrix.removeMinPair = none := by
    simp [CostMatrix.removeMinPair, CostMatrix.findMinPair, noEntry]
  cases fuel with
  | zero => rfl
  | succ fuel => simp only [joinLoop, noPair]

theorem setLastEffect_append (effect : SymbolicAtom Pred Var Obj) (front rules : List (TypedRule Pred Var Obj)) (some : rules ≠ []) :
    setLastEffect effect (front ++ rules) = front ++ setLastEffect effect rules := by
  induction front with
  | nil => rfl
  | cons typed front inductionHypothesis =>
    cases isRest : front ++ rules with
    | nil => exact absurd (List.append_eq_nil_iff.mp isRest).2 some
    | cons next rest => rw [List.cons_append, isRest, setLastEffect, ← isRest, inductionHypothesis, List.cons_append]

theorem joinLoop_splits (le : Term Var Obj → Term Var Obj → Bool) (count : ℕ) (injective : Function.Injective newName) (joining : Joining effect matrix occurrences)
    (distinct : (variablesOf effect).Nodup) (canJoin : 2 ≤ matrix.joinees.length) {fuel : ℕ}
    (enough : matrix.joinees.length ≤ fuel + 1) :
    (joinLoop newName le fuel matrix occurrences count).1 ≠ [] ∧
      Splits newName {⟨matrix.joinees, effect⟩} count
        (setLastEffect effect (joinLoop newName le fuel matrix occurrences count).1)
        (joinLoop newName le fuel matrix occurrences count).2 := by
  induction fuel generalizing matrix occurrences count with
  | zero => omega
  | succ fuel inductionHypothesis =>
    obtain ⟨left, right, joint, rest, nextOccurrences, joinCount, projections, round⟩ :=
      joining.exists_round le count injective canJoin
    rw [round.loop fuel]
    refine ⟨by simp, ?_⟩
    rw [setLastEffect_append effect _ _ (by simp)]
    have nextLength : (rest.addEntry joint).joinees.length = rest.joinees.length + 1 := by simp [CostMatrix.addEntry]
    have sameLength := round.length
    apply round.splits
    by_cases isLast : rest.joinees = []
    · -- The name of the last join is given to no predicate.
      have noMore := joinLoop_of_single newName le nextOccurrences (joinCount + 1) round.next.tabulated (by simp [nextLength, isLast]) fuel
      rw [noMore, isLast, setLastEffect]
      have joins := round.joins
      rw [isLast] at joins
      exact (Splits.lastJoin joins distinct (round.boundPair isLast)).weaken injective (Nat.le_succ joinCount)
    · have someLeft : 0 < rest.joinees.length := List.length_pos_iff.mpr isLast
      obtain ⟨someRule, splits⟩ := inductionHypothesis (joinCount + 1) round.next (by omega) (by omega)
      have isJoin := setLastEffect_append effect [⟨.join, ⟨[left, right], joint⟩⟩] _ someRule
      rw [List.singleton_append, List.singleton_append] at isJoin
      rw [isJoin]
      refine Splits.join injective round.joins round.isNew (Splits.perm injective ?_ splits)
      exact (List.perm_append_singleton joint _).symm

/-- The greedy join splits a rule whose conditions are connected. -/
theorem greedyJoin_splits (injective : Function.Injective newName) {rule : DatalogRule Pred Var Obj}
    (normal : NormalRule rule) (connected : Connected rule.conditions) (canJoin : 2 ≤ rule.conditions.length) :
    Splits newName {rule} count (greedyJoin newName le rule count).1 (greedyJoin newName le rule count).2 := by
  obtain ⟨tabulated, isJoinees⟩ := CostMatrix.tabulated_ofJoinees rule.conditions
  have joining : Joining rule.effect (.ofJoinees rule.conditions) (.ofRule rule) := by
    refine ⟨tabulated, ?_, ?_, ?_, ?_⟩ <;> rw [isJoinees]
    · exact OccurrencesTracker.tracks_ofRule rule
    · exact normal.distinctConditions
    · exact normal.bound
    · exact connected
  have splits := (joinLoop_splits le count injective joining normal.distinctEffect
    (by rwa [isJoinees]) (show _ ≤ rule.conditions.length + 1 by rw [isJoinees]; omega)).2
  rw [isJoinees] at splits
  exact splits

end Loop

end CutPlan.Translate
