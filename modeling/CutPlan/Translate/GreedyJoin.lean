import CutPlan.Translate.NumberedRules

/-! # Greedy joins

A rule with several conditions is split into joins of two conditions each.  The cheapest pair of conditions
is joined first; what the rest of the rule does not need is projected away before the join.
-/

set_option linter.unusedSectionVars false

namespace CutPlan.Translate

open CutPlan.Lib

variable {Pred Var Obj : Type} [DecidableEq Pred] [DecidableEq Var] [DecidableEq Obj]

/-! ## Occurrences of variables -/

abbrev OccurrencesTracker (Var : Type) := Dictionary Var ℤ

namespace OccurrencesTracker

/-- A count that drops to zero is deleted. -/
def change (occurrences : OccurrencesTracker Var) (delta : ℤ) (name : Var) : OccurrencesTracker Var :=
  let count := (occurrences.get? name).getD 0 + delta
  if count = 0 then occurrences.erase name else occurrences.insert name count

def update (occurrences : OccurrencesTracker Var) (symatom : SymbolicAtom Pred Var Obj) (delta : ℤ) :
    OccurrencesTracker Var :=
  (variablesOf symatom).foldl (fun occurrences name => change occurrences delta name) occurrences

def ofRule (rule : DatalogRule Pred Var Obj) : OccurrencesTracker Var :=
  rule.conditions.foldl (fun occurrences cond => update occurrences cond 1)
    (update (Dictionary.empty : OccurrencesTracker Var) rule.effect 1)

end OccurrencesTracker

/-! ## The cost matrix -/

abbrev JoinCost := ℤ ×ₗ ℤ ×ₗ ℤ

def computeJoinCost (leftJoinee rightJoinee : SymbolicAtom Pred Var Obj) : JoinCost :=
  let leftVars := (variablesOf leftJoinee).dedup
  let rightVars := (variablesOf rightJoinee).dedup
  let (leftVars, rightVars) :=
    if rightVars.length < leftVars.length then (rightVars, leftVars) else (leftVars, rightVars)
  let commonVars := leftVars.filter (· ∈ rightVars)
  toLex ((leftVars.length - commonVars.length : ℤ),
    toLex ((rightVars.length - commonVars.length : ℤ), -(commonVars.length : ℤ)))

/-- Row by row the costs of joining a joinee with the ones before it. -/
structure CostMatrix (Pred Var Obj : Type) where
  joinees : List (SymbolicAtom Pred Var Obj)
  costMatrix : List (List JoinCost)

namespace CostMatrix

def addEntry (matrix : CostMatrix Pred Var Obj) (joinee : SymbolicAtom Pred Var Obj) :
    CostMatrix Pred Var Obj where
  joinees := matrix.joinees ++ [joinee]
  costMatrix := matrix.costMatrix ++ [matrix.joinees.map fun other => computeJoinCost joinee other]

def ofJoinees (joinees : List (SymbolicAtom Pred Var Obj)) : CostMatrix Pred Var Obj :=
  joinees.foldl addEntry ⟨[], []⟩

def deleteEntry (matrix : CostMatrix Pred Var Obj) (index : ℕ) : CostMatrix Pred Var Obj where
  joinees := matrix.joinees.eraseIdx index
  costMatrix := (matrix.costMatrix.zipIdx.map fun (row, number) =>
    if index < number then row.eraseIdx index else row).eraseIdx index

/-- All entries with their rows and columns. -/
def entries (matrix : CostMatrix Pred Var Obj) : List (JoinCost × ℕ × ℕ) :=
  matrix.costMatrix.zipIdx.flatMap fun (row, i) => row.zipIdx.map fun (entry, j) => (entry, i, j)

def keepCheaper (best : Option (JoinCost × ℕ × ℕ)) (candidate : JoinCost × ℕ × ℕ) : Option (JoinCost × ℕ × ℕ) :=
  match best with
  | none => some candidate
  | some known => if candidate.1 < known.1 then some candidate else some known

/-- The first of the cheapest entries. -/
def findMinPair (matrix : CostMatrix Pred Var Obj) : Option (JoinCost × ℕ × ℕ) :=
  matrix.entries.foldl keepCheaper none

def removeMinPair (matrix : CostMatrix Pred Var Obj) :
    Option (SymbolicAtom Pred Var Obj × SymbolicAtom Pred Var Obj ×
      CostMatrix Pred Var Obj) := do
  let (_, leftIndex, rightIndex) ← matrix.findMinPair
  let left ← matrix.joinees[leftIndex]?
  let right ← matrix.joinees[rightIndex]?
  return (left, right, (matrix.deleteEntry leftIndex).deleteEntry rightIndex)

end CostMatrix

/-! ## Joining -/

section Joining

variable (newName : ℕ → Pred) (le : Term Var Obj → Term Var Obj → Bool)

/-- A joinee without the arguments that nothing needs. -/
def projectJoinee (needed : List (Term Var Obj)) (joinee : SymbolicAtom Pred Var Obj) (count : ℕ) :
    SymbolicAtom Pred Var Obj × List (TypedRule Pred Var Obj) × ℕ :=
  let joineeVars := joinee.args.dedup
  let retainedVars := joineeVars.filter (· ∈ needed)
  if retainedVars = joineeVars then (joinee, [], count)
  else
    let effect : SymbolicAtom Pred Var Obj := ⟨newName count, retainedVars.mergeSort le⟩
    (effect, [⟨.project, ⟨[joinee], effect⟩⟩], count + 1)

/-- The arguments of two joinees that are variables of the rest of the rule. -/
def effectVars (occurrences : OccurrencesTracker Var) (left right : SymbolicAtom Pred Var Obj) :
    List (Term Var Obj) :=
  (left.args ++ right.args).dedup.filter fun
    | .var name => (occurrences.get? name).isSome
    | .object _ => false

/-- The rules of the joins that remain, and the names that have been used. -/
def joinLoop : ℕ → CostMatrix Pred Var Obj → OccurrencesTracker Var → ℕ →
    List (TypedRule Pred Var Obj) × ℕ
  | 0, _, _, count => ([], count)
  | fuel + 1, matrix, occurrences, count =>
    match matrix.removeMinPair with
    | none => ([], count)
    | some (left, right, matrix) =>
      let occurrences := (occurrences.update left (-1)).update right (-1)
      let commonVars := left.args.filter (· ∈ right.args)
      let effectVars := effectVars occurrences left right
      let (left, leftRules, count) := projectJoinee newName le (effectVars ++ commonVars) left count
      let (right, rightRules, count) := projectJoinee newName le (effectVars ++ commonVars) right count
      let joint : SymbolicAtom Pred Var Obj := ⟨newName count, effectVars.mergeSort le⟩
      let (rules, count) := joinLoop fuel (matrix.addEntry joint) (occurrences.update joint 1) (count + 1)
      (leftRules ++ rightRules ++ ⟨.join, ⟨[left, right], joint⟩⟩ :: rules, count)

/-- The last join gets the effect of the rule. -/
def setLastEffect (effect : SymbolicAtom Pred Var Obj) :
    List (TypedRule Pred Var Obj) → List (TypedRule Pred Var Obj)
  | [] => []
  | [typed] => [⟨typed.type, ⟨typed.rule.conditions, effect⟩⟩]
  | typed :: next :: rest => typed :: setLastEffect effect (next :: rest)

def greedyJoin (rule : DatalogRule Pred Var Obj) (count : ℕ) :
    List (TypedRule Pred Var Obj) × ℕ :=
  let (rules, count) :=
    joinLoop newName le rule.conditions.length (.ofJoinees rule.conditions) (.ofRule rule) count
  (setLastEffect rule.effect rules, count)

end Joining

/-! ## The tracker counts -/

namespace OccurrencesTracker

/-- Every variable has as many occurrences as in the atoms, and those without occurrences are not listed. -/
def Tracks (occurrences : OccurrencesTracker Var) (atoms : List (SymbolicAtom Pred Var Obj)) : Prop :=
  ∀ name count, occurrences.get? name = some count ↔
    count ≠ 0 ∧ count = (atoms.flatMap variablesOf).count name

theorem get?_erase_self {Key Value : Type} [DecidableEq Key] (dictionary : Dictionary Key Value) (key : Key) :
    (dictionary.erase key).get? key = none := by
  rw [Dictionary.get?_eq_none]
  intro value
  simp [Dictionary.mem_erase]

theorem get?_change {occurrences : OccurrencesTracker Var} {counts : Var → ℤ}
    (counted : ∀ name count, occurrences.get? name = some count ↔ count ≠ 0 ∧ count = counts name) (delta : ℤ)
    (changed name : Var) (count : ℤ) :
    (change occurrences delta changed).get? name = some count ↔
      count ≠ 0 ∧ count = counts name + if name = changed then delta else 0 := by
  have known : (occurrences.get? changed).getD 0 = counts changed := by
    cases isCount : occurrences.get? changed with
    | some value => exact ((counted changed value).mp isCount).2
    | none =>
      by_contra isOther
      have := (counted changed (counts changed)).mpr ⟨fun isZero => isOther isZero.symm, rfl⟩
      simp [isCount] at this
  rw [change, known]
  by_cases same : name = changed
  · subst same
    by_cases isZero : counts name + delta = 0
    · simp only [isZero, if_true, get?_erase_self, reduceCtorEq, false_iff, not_and]
      intro nonzero isSum
      exact nonzero isSum
    · simp only [isZero, if_false, if_true, Dictionary.get?_insert_self, Option.some.injEq]
      constructor
      · rintro rfl
        exact ⟨isZero, rfl⟩
      · rintro ⟨_, rfl⟩
        rfl
  · have kept : (if counts changed + delta = 0 then occurrences.erase changed
        else occurrences.insert changed (counts changed + delta)).get? name = occurrences.get? name := by
      split
      · exact Dictionary.get?_erase_of_ne same
      · exact Dictionary.get?_insert_of_ne same _
    simp only [kept, same, if_false, Int.add_zero]
    exact counted name count

theorem get?_foldl_change {occurrences : OccurrencesTracker Var} {counts : Var → ℤ}
    (counted : ∀ name count, occurrences.get? name = some count ↔ count ≠ 0 ∧ count = counts name) (delta : ℤ)
    (names : List Var) (name : Var) (count : ℤ) :
    (names.foldl (fun occurrences name => change occurrences delta name) occurrences).get? name = some count ↔
      count ≠ 0 ∧ count = counts name + delta * names.count name := by
  induction names generalizing occurrences counts with
  | nil => simpa using counted name count
  | cons first names inductionHypothesis =>
    rw [List.foldl_cons, inductionHypothesis (get?_change counted delta first)]
    by_cases same : name = first
    · subst same
      simp only [List.count_cons_self, if_true, Int.natCast_add, Int.natCast_one, Int.mul_add, Int.mul_one]
      omega
    · have same' : ¬ first = name := fun isSame => same isSame.symm
      simp [same, List.count_cons_of_ne same']

theorem Tracks.add {occurrences : OccurrencesTracker Var} {atoms : List (SymbolicAtom Pred Var Obj)}
    (tracks : Tracks occurrences atoms) (symatom : SymbolicAtom Pred Var Obj) :
    Tracks (update occurrences symatom 1) (symatom :: atoms) := by
  intro name count
  rw [update, get?_foldl_change tracks]
  simp only [List.flatMap_cons, List.count_append]
  omega

theorem Tracks.remove {occurrences : OccurrencesTracker Var} {atoms : List (SymbolicAtom Pred Var Obj)}
    {symatom : SymbolicAtom Pred Var Obj} (tracks : Tracks occurrences (symatom :: atoms)) :
    Tracks (update occurrences symatom (-1)) atoms := by
  intro name count
  rw [update, get?_foldl_change tracks]
  simp only [List.flatMap_cons, List.count_append]
  omega

theorem Tracks.perm {occurrences : OccurrencesTracker Var} {first second : List (SymbolicAtom Pred Var Obj)}
    (tracks : Tracks occurrences first) (same : first.Perm second) : Tracks occurrences second := by
  intro name count
  rw [tracks name count, (same.flatMap_right variablesOf).count_eq]

theorem tracks_ofRule (rule : DatalogRule Pred Var Obj) :
    Tracks (ofRule rule) (rule.effect :: rule.conditions) := by
  have start : Tracks (Dictionary.empty : OccurrencesTracker Var)
      ([] : List (SymbolicAtom Pred Var Obj)) := by
    intro name count
    simp
  have each : ∀ (conditions atoms : List (SymbolicAtom Pred Var Obj))
      (occurrences : OccurrencesTracker Var), Tracks occurrences atoms →
        Tracks (conditions.foldl (fun occurrences cond => update occurrences cond 1) occurrences)
          (atoms ++ conditions) := by
    intro conditions
    induction conditions with
    | nil =>
      intro atoms occurrences tracks
      simpa using tracks
    | cons condition conditions inductionHypothesis =>
      intro atoms occurrences tracks
      have rest := inductionHypothesis (atoms ++ [condition]) (update occurrences condition 1)
        ((tracks.add condition).perm (List.perm_append_singleton condition atoms).symm)
      simpa using rest
  exact each rule.conditions [rule.effect] _ (start.add rule.effect)

theorem Tracks.isSome_iff {occurrences : OccurrencesTracker Var}
    {atoms : List (SymbolicAtom Pred Var Obj)} (tracks : Tracks occurrences atoms) {name : Var} :
    (occurrences.get? name).isSome = true ↔ OccursIn name atoms := by
  have occurs : OccursIn name atoms ↔ (atoms.flatMap variablesOf).count name ≠ 0 := by
    rw [← Nat.pos_iff_ne_zero, List.count_pos_iff]
    simp [OccursIn]
  rw [occurs, Option.isSome_iff_exists]
  constructor
  · rintro ⟨count, isCount⟩ isZero
    have ⟨nonzero, isCount⟩ := (tracks name count).mp isCount
    exact nonzero (by simpa [isZero] using isCount)
  · intro nonzero
    exact ⟨_, (tracks name _).mpr ⟨by simpa using nonzero, rfl⟩⟩

end OccurrencesTracker

/-! ## The matrix has the costs of the joinees -/

namespace CostMatrix

variable {matrix : CostMatrix Pred Var Obj}

def Tabulated (matrix : CostMatrix Pred Var Obj) : Prop :=
  ∀ i : ℕ, matrix.costMatrix[i]? =
    (matrix.joinees[i]?).map fun joinee => (matrix.joinees.take i).map fun other => computeJoinCost joinee other

theorem Tabulated.length (tabulated : matrix.Tabulated) : matrix.costMatrix.length = matrix.joinees.length := by
  apply Nat.le_antisymm
  · have atEnd := tabulated matrix.joinees.length
    rw [List.getElem?_eq_none le_rfl] at atEnd
    exact List.getElem?_eq_none_iff.mp atEnd
  · have atEnd := tabulated matrix.costMatrix.length
    rw [List.getElem?_eq_none le_rfl] at atEnd
    exact List.getElem?_eq_none_iff.mp (Option.map_eq_none_iff.mp atEnd.symm)

theorem Tabulated.addEntry (tabulated : matrix.Tabulated) (joinee : SymbolicAtom Pred Var Obj) :
    (matrix.addEntry joinee).Tabulated := by
  intro i
  have sameLength := tabulated.length
  simp only [CostMatrix.addEntry]
  rcases Nat.lt_trichotomy i matrix.joinees.length with less | same | greater
  · rw [List.getElem?_append_left (by omega), List.getElem?_append_left less, tabulated i,
      List.take_append_of_le_length (by omega)]
  · subst same
    rw [← sameLength, List.getElem?_append_right le_rfl, sameLength, List.getElem?_append_right le_rfl,
      List.take_append_of_le_length le_rfl]
    simp
  · rw [List.getElem?_eq_none (by simp; omega), List.getElem?_eq_none (by simp; omega)]
    rfl

theorem tabulated_ofJoinees (joinees : List (SymbolicAtom Pred Var Obj)) :
    (ofJoinees joinees).Tabulated ∧ (ofJoinees joinees).joinees = joinees := by
  have each : ∀ (more : List (SymbolicAtom Pred Var Obj)) (matrix : CostMatrix Pred Var Obj),
      matrix.Tabulated → (more.foldl CostMatrix.addEntry matrix).Tabulated ∧
        (more.foldl CostMatrix.addEntry matrix).joinees = matrix.joinees ++ more := by
    intro more
    induction more with
    | nil => simp
    | cons joinee more inductionHypothesis =>
      intro matrix tabulated
      obtain ⟨stillTabulated, isJoinees⟩ := inductionHypothesis _ (tabulated.addEntry joinee)
      exact ⟨stillTabulated, isJoinees.trans (by simp [CostMatrix.addEntry])⟩
  exact each joinees ⟨[], []⟩ fun i => by simp

theorem eraseIdx_take_succ {α : Type*} (list : List α) {index i : ℕ} (before : index ≤ i) :
    (list.take (i + 1)).eraseIdx index = (list.eraseIdx index).take i := by
  apply List.ext_getElem?
  intro place
  simp only [List.getElem?_eraseIdx, List.getElem?_take]
  split_ifs <;> first | rfl | omega

theorem Tabulated.deleteEntry (tabulated : matrix.Tabulated) {index : ℕ} :
    (matrix.deleteEntry index).Tabulated := by
  intro i
  simp only [CostMatrix.deleteEntry, List.getElem?_eraseIdx]
  by_cases before : i < index
  · have kept : ¬ index < i := by omega
    simp only [before, if_true, List.getElem?_map, List.getElem?_zipIdx, tabulated i, Option.map_map, Nat.zero_add]
    cases matrix.joinees[i]? with
    | none => rfl
    | some joinee => simp [kept, List.take_eraseIdx_eq_take_of_le matrix.joinees i index (by omega)]
  · have shifted : index < i + 1 := by omega
    simp only [before, if_false, List.getElem?_map, List.getElem?_zipIdx, tabulated (i + 1), Option.map_map, Nat.zero_add]
    cases matrix.joinees[i + 1]? with
    | none => rfl
    | some joinee =>
      simp only [Option.map_some, Function.comp_apply, shifted, if_true, Option.some.injEq]
      rw [List.eraseIdx_map, eraseIdx_take_succ _ (by omega)]

theorem Tabulated.mem_entries (tabulated : matrix.Tabulated) {cost : JoinCost} {i j : ℕ} :
    (cost, i, j) ∈ matrix.entries ↔ j < i ∧ ∃ left right, matrix.joinees[i]? = some left ∧
      matrix.joinees[j]? = some right ∧ cost = computeJoinCost left right := by
  simp only [entries, List.mem_flatMap, Prod.exists, List.mem_zipIdx_iff_getElem?, List.mem_map, Prod.mk.injEq,
    tabulated _, Option.map_eq_some_iff]
  constructor
  · rintro ⟨row, row', ⟨left, isLeft, rfl⟩, entry, column, isEntry, rfl, rfl, rfl⟩
    rw [List.getElem?_map, Option.map_eq_some_iff] at isEntry
    obtain ⟨right, isRight, rfl⟩ := isEntry
    rw [List.getElem?_take, Option.ite_none_right_eq_some] at isRight
    exact ⟨isRight.1, left, right, isLeft, isRight.2, rfl⟩
  · rintro ⟨less, left, right, isLeft, isRight, rfl⟩
    refine ⟨_, i, ⟨left, isLeft, rfl⟩, _, j, ?_, rfl, rfl, rfl⟩
    rw [List.getElem?_map, List.getElem?_take, if_pos less, isRight]
    rfl

/-- The fold keeps one of the cheapest entries. -/
theorem foldl_keepCheaper (entries : List (JoinCost × ℕ × ℕ)) (start : JoinCost × ℕ × ℕ) :
    ∃ best, entries.foldl keepCheaper (some start) = some best ∧ best ∈ start :: entries ∧
      ∀ entry ∈ start :: entries, best.1 ≤ entry.1 := by
  induction entries generalizing start with
  | nil => exact ⟨start, rfl, by simp, by simp⟩
  | cons entry entries inductionHypothesis =>
    by_cases cheaper : entry.1 < start.1
    · obtain ⟨best, isBest, isEntry, least⟩ := inductionHypothesis entry
      refine ⟨best, by simpa [keepCheaper, cheaper] using isBest, List.mem_cons_of_mem _ isEntry, ?_⟩
      exact List.forall_mem_cons.mpr ⟨(least entry List.mem_cons_self).trans cheaper.le, least⟩
    · obtain ⟨best, isBest, isEntry, least⟩ := inductionHypothesis start
      refine ⟨best, by simpa [keepCheaper, cheaper] using isBest, ?_, ?_⟩
      · simp only [List.mem_cons] at isEntry ⊢
        tauto
      · rw [List.forall_mem_cons] at least
        have leEntry := least.1.trans (not_lt.mp cheaper)
        exact List.forall_mem_cons.mpr ⟨least.1, List.forall_mem_cons.mpr ⟨leEntry, least.2⟩⟩

theorem exists_findMinPair (someEntry : matrix.entries ≠ []) :
    ∃ best, matrix.findMinPair = some best ∧ best ∈ matrix.entries ∧ ∀ entry ∈ matrix.entries, best.1 ≤ entry.1 := by
  rw [findMinPair]
  cases isEntries : matrix.entries with
  | nil => exact absurd isEntries someEntry
  | cons entry entries => exact foldl_keepCheaper entries entry

/-- A cheapest pair is taken out when there are two joinees. -/
theorem Tabulated.exists_removeMinPair (tabulated : matrix.Tabulated) (canJoin : 2 ≤ matrix.joinees.length) :
    ∃ left right rest, matrix.removeMinPair = some (left, right, rest) ∧ rest.Tabulated ∧
      matrix.joinees.Perm (left :: right :: rest.joinees) ∧
        ∀ (i j : ℕ) first second, j < i → matrix.joinees[i]? = some first → matrix.joinees[j]? = some second →
          computeJoinCost left right ≤ computeJoinCost first second := by
  have someEntry : matrix.entries ≠ [] := by
    have isEntry := tabulated.mem_entries.mpr ⟨Nat.zero_lt_one, _, _, List.getElem?_eq_getElem (i := 1) (by omega),
      List.getElem?_eq_getElem (i := 0) (by omega), rfl⟩
    exact List.ne_nil_of_mem isEntry
  obtain ⟨⟨cost, i, j⟩, isBest, isEntry, least⟩ := exists_findMinPair someEntry
  obtain ⟨less, left, right, isLeft, isRight, rfl⟩ := tabulated.mem_entries.mp isEntry
  refine ⟨left, right, (matrix.deleteEntry i).deleteEntry j, ?_, tabulated.deleteEntry.deleteEntry, ?_, ?_⟩
  · simp [removeMinPair, isBest, isLeft, isRight]
  · obtain ⟨inRange, rfl⟩ := List.getElem?_eq_some_iff.mp isLeft
    have isRight' : (matrix.joinees.eraseIdx i)[j]? = some right := by
      rw [List.getElem?_eraseIdx_of_lt less, isRight]
    obtain ⟨inRange', rfl⟩ := List.getElem?_eq_some_iff.mp isRight'
    have first := (List.getElem_cons_eraseIdx_perm inRange).symm
    have second := (List.getElem_cons_eraseIdx_perm inRange').symm
    exact first.trans (second.cons _)
  · intro i' j' first second less' isFirst isSecond
    exact least _ (tabulated.mem_entries.mpr ⟨less', first, second, isFirst, isSecond, rfl⟩)

end CostMatrix

end CutPlan.Translate
