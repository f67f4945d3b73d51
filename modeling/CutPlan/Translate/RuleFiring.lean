import CutPlan.Translate.BuildRules

/-! # What a rule enqueues

A rule with numbered variables derives the instances of its effect under all values of the numbers for which
its conditions fit atoms.  Variables that are not numbered fit everything, each occurrence by itself.  When
an atom has been recorded for a condition, the rule enqueues the instances in which that atom takes part
together with atoms recorded before.
-/

namespace CutPlan.Translate

open CutPlan.Lib

variable {Pred Var Obj : Type}
  {atom condition effect newAtom conclusion : BuildAtom Pred Var Obj}
  {conditions premises : List (BuildAtom Pred Var Obj)} {values : ℕ → BuildArgument Var Obj}
  {effectArgs : List (BuildArgument Var Obj)} {bindings : Bindings Var Obj} {index condIndex : ℕ}

/-! ## Instances -/

namespace BuildArgument

def value (values : ℕ → BuildArgument Var Obj) : BuildArgument Var Obj → BuildArgument Var Obj
  | position index => values index
  | term kept => term kept

def Fits (values : ℕ → BuildArgument Var Obj) :
    BuildArgument Var Obj → BuildArgument Var Obj → Prop
  | position index, argument => argument = values index
  | term (.object known), argument => argument = term (.object known)
  | term (.var _), _ => True

/-- Constants are all that a single match compares. -/
def Matches : BuildArgument Var Obj → BuildArgument Var Obj → Prop
  | term (.object known), argument => argument = term (.object known)
  | position _, _ | term (.var _), _ => True

@[simp] theorem position?_eq_some {argument : BuildArgument Var Obj} :
    argument.position? = some index ↔ argument = position index := by
  cases argument <;> simp [position?]

theorem fits_iff {condition argument : BuildArgument Var Obj} :
    condition.Fits values argument ↔
      condition.Matches argument ∧ ∀ index, condition = position index → values index = argument := by
  cases condition with
  | position index => simp [Fits, Matches, eq_comm]
  | term kept => cases kept <;> simp [Fits, Matches]

end BuildArgument

structure AtomFits (values : ℕ → BuildArgument Var Obj)
    (condition atom : BuildAtom Pred Var Obj) : Prop where
  predicate : atom.predicate = condition.predicate
  args : List.Forall₂ (BuildArgument.Fits values) condition.args atom.args

structure AtomMatches (condition atom : BuildAtom Pred Var Obj) : Prop where
  predicate : atom.predicate = condition.predicate
  args : List.Forall₂ BuildArgument.Matches condition.args atom.args

/-- The effect under values of the numbers. -/
def effectUnder (values : ℕ → BuildArgument Var Obj) (effect : BuildAtom Pred Var Obj) :
    BuildAtom Pred Var Obj :=
  ⟨effect.predicate, effect.args.map (BuildArgument.value values)⟩

def BuildInfers (effect : BuildAtom Pred Var Obj)
    (conditions premises : List (BuildAtom Pred Var Obj))
    (conclusion : BuildAtom Pred Var Obj) : Prop :=
  ∃ values, List.Forall₂ (AtomFits values) conditions premises ∧ conclusion = effectUnder values effect

/-- How rules look after their variables have been numbered. -/
structure WellNumbered (effect : BuildAtom Pred Var Obj)
    (conditions : List (BuildAtom Pred Var Obj)) : Prop where
  ownPosition : ∀ index number : ℕ, effect.args[index]? = some (.position number) → number = index
  ofEffect : ∀ condition ∈ conditions, ∀ index ∈ positionsOf condition, effect.args[index]? = some (.position index)
  bound : ∀ index : ℕ, effect.args[index]? = some (.position index) → ∃ condition ∈ conditions,
    index ∈ positionsOf condition
  distinct : ∀ condition ∈ conditions, (positionsOf condition).Nodup

/-! ## Bindings -/

theorem mem_zip_of_getElem? {α β : Type*} {first : List α} {second : List β} {place : ℕ} {a : α} {b : β}
    (isFirst : first[place]? = some a) (isSecond : second[place]? = some b) : (a, b) ∈ first.zip second := by
  have atPlace : (first.zip second)[place]? = some (a, b) := List.getElem?_zip_eq_some.mpr ⟨isFirst, isSecond⟩
  exact List.mem_of_getElem? atPlace

@[simp] theorem mem_positionsOf :
    index ∈ positionsOf atom ↔ .position index ∈ atom.args := by
  simp [positionsOf]

theorem sublist_of_getElem? {α : Type*} {list : List α} {first second : ℕ} {a b : α} (less : first < second)
    (isFirst : list[first]? = some a) (isSecond : list[second]? = some b) : [a, b].Sublist list := by
  obtain ⟨inRange, rfl⟩ := List.getElem?_eq_some_iff.mp isFirst
  obtain ⟨inRange', rfl⟩ := List.getElem?_eq_some_iff.mp isSecond
  have isEarlier : (list.drop (first + 1))[second - (first + 1)]? = some list[second] := by
    rw [List.getElem?_drop, show first + 1 + (second - (first + 1)) = second by omega]
    exact isSecond
  have inRest : [list[second]].Sublist (list.drop (first + 1)) :=
    List.singleton_sublist.mpr (List.mem_of_getElem? isEarlier)
  have both := inRest.cons₂ list[first]
  rw [← List.drop_eq_getElem_cons inRange] at both
  exact both.trans (List.drop_sublist _ _)

theorem mem_getBindings {object : BuildArgument Var Obj} :
    (index, object) ∈ getBindings atom condition ↔
      ∃ place : ℕ, condition.args[place]? = some (.position index) ∧ atom.args[place]? = some object := by
  simp only [getBindings, List.mem_filterMap, Option.map_eq_some_iff, Prod.mk.injEq, Prod.exists]
  constructor
  · rintro ⟨argument, bound, inZip, number, isPosition, rfl, rfl⟩
    rw [BuildArgument.position?_eq_some] at isPosition
    subst isPosition
    obtain ⟨place, atPlace⟩ := List.mem_iff_getElem?.mp inZip
    exact ⟨place, List.getElem?_zip_eq_some.mp atPlace⟩
  · rintro ⟨place, isPosition, isObject⟩
    exact ⟨_, _, mem_zip_of_getElem? isPosition isObject, index, rfl, rfl, rfl⟩

/-- A condition without repeated numbers has each of them at one place. -/
theorem samePlace_of_nodup (distinct : (positionsOf condition).Nodup)
    {first second : ℕ} (isFirst : condition.args[first]? = some (.position index))
    (isSecond : condition.args[second]? = some (.position index)) : first = second := by
  by_contra different
  have twice : List.Sublist [BuildArgument.position index, .position index] condition.args := by
    rcases Nat.lt_or_gt_of_ne different with less | greater
    · exact sublist_of_getElem? less isFirst isSecond
    · exact sublist_of_getElem? greater isSecond isFirst
  have twiceNumbered := twice.filterMap BuildArgument.position?
  exact List.nodup_iff_sublist.mp distinct index (by simpa [positionsOf, BuildArgument.position?] using twiceNumbered)

/-- An atom that matches a condition binds all its numbers. -/
theorem mem_keys_getBindings (sameLength : condition.args.length = atom.args.length) :
    index ∈ (getBindings atom condition).map Prod.fst ↔ index ∈ positionsOf condition := by
  simp only [List.mem_map, Prod.exists, exists_and_right, exists_eq_right, mem_getBindings, mem_positionsOf]
  constructor
  · rintro ⟨_, place, isPosition, _⟩
    exact List.mem_of_getElem? isPosition
  · intro occurs
    obtain ⟨place, isPosition⟩ := List.mem_iff_getElem?.mp occurs
    have inRange : place < atom.args.length := by
      have := (List.getElem?_eq_some_iff.mp isPosition).1
      omega
    exact ⟨atom.args[place], place, isPosition, List.getElem?_eq_getElem inRange⟩

theorem AtomMatches.sameLength (isMatch : AtomMatches condition atom) : condition.args.length = atom.args.length :=
  isMatch.args.length_eq

/-- An atom fits under values that agree with what it binds. -/
theorem atomFits_iff :
    AtomFits values condition atom ↔
      AtomMatches condition atom ∧ ∀ binding ∈ getBindings atom condition, values binding.1 = binding.2 := by
  constructor
  · intro fits
    refine ⟨⟨fits.predicate, fits.args.imp fun _ _ slot => (BuildArgument.fits_iff.mp slot).1⟩, ?_⟩
    rintro ⟨index, object⟩ isBinding
    obtain ⟨place, isPosition, isObject⟩ := mem_getBindings.mp isBinding
    have slot := (List.forall₂_iff_get.mp fits.args).2
    obtain ⟨inCondition, isPosition⟩ := List.getElem?_eq_some_iff.mp isPosition
    obtain ⟨inAtom, isObject⟩ := List.getElem?_eq_some_iff.mp isObject
    have slotFits := slot place inCondition inAtom
    simp only [List.get_eq_getElem, isPosition, isObject, BuildArgument.Fits] at slotFits
    exact slotFits.symm
  · rintro ⟨isMatch, agrees⟩
    refine ⟨isMatch.predicate, List.forall₂_iff_get.mpr ⟨isMatch.sameLength, ?_⟩⟩
    intro place inCondition inAtom
    refine BuildArgument.fits_iff.mpr ⟨(List.forall₂_iff_get.mp isMatch.args).2 place inCondition inAtom, ?_⟩
    intro index isPosition
    apply agrees (index, atom.args[place])
    refine mem_getBindings.mpr ⟨place, ?_, List.getElem?_eq_getElem inAtom⟩
    rw [List.getElem?_eq_getElem inCondition]
    exact congrArg some isPosition

@[simp] theorem bindAll_nil (effectArgs : List (BuildArgument Var Obj)) : bindAll effectArgs [] = effectArgs :=
  rfl

@[simp] theorem bindAll_cons (effectArgs : List (BuildArgument Var Obj))
    (binding : ℕ × BuildArgument Var Obj) (bindings : Bindings Var Obj) :
    bindAll effectArgs (binding :: bindings) = bindAll (effectArgs.set binding.1 binding.2) bindings := rfl

theorem bindAll_append (effectArgs : List (BuildArgument Var Obj)) (first second : Bindings Var Obj) :
    bindAll effectArgs (first ++ second) = bindAll (bindAll effectArgs first) second :=
  List.foldl_append

@[simp] theorem length_bindAll (effectArgs : List (BuildArgument Var Obj))
    (bindings : Bindings Var Obj) : (bindAll effectArgs bindings).length = effectArgs.length := by
  induction bindings generalizing effectArgs with
  | nil => rfl
  | cons binding bindings inductionHypothesis => simp [inductionHypothesis]

theorem getElem?_bindAll_of_notMem (isFree : index ∉ bindings.map Prod.fst) :
    (bindAll effectArgs bindings)[index]? = effectArgs[index]? := by
  induction bindings generalizing effectArgs with
  | nil => rfl
  | cons binding bindings inductionHypothesis =>
    simp only [List.map_cons, List.mem_cons, not_or] at isFree
    rw [bindAll_cons, inductionHypothesis isFree.2, List.getElem?_set_ne (Ne.symm isFree.1)]

theorem getElem?_bindAll_of_mem (agrees : ∀ binding ∈ bindings, values binding.1 = binding.2)
    (isBound : index ∈ bindings.map Prod.fst) (inRange : index < effectArgs.length) :
    (bindAll effectArgs bindings)[index]? = some (values index) := by
  induction bindings generalizing effectArgs with
  | nil => simp at isBound
  | cons binding bindings inductionHypothesis =>
    rw [List.forall_mem_cons] at agrees
    rw [bindAll_cons]
    by_cases later : index ∈ bindings.map Prod.fst
    · exact inductionHypothesis agrees.2 later (by simpa using inRange)
    · have isFirst : index = binding.1 := by simpa [later] using isBound
      subst isFirst
      rw [getElem?_bindAll_of_notMem later, List.getElem?_set_self inRange, agrees.1]

/-- What was written before at the same positions does not matter. -/
theorem bindAll_congr {first second : List (BuildArgument Var Obj)} (sameLength : first.length = second.length)
    (sameElsewhere : ∀ index, index ∉ bindings.map Prod.fst → first[index]? = second[index]?) :
    bindAll first bindings = bindAll second bindings := by
  induction bindings generalizing first second with
  | nil => exact List.ext_getElem? fun index => sameElsewhere index (by simp)
  | cons binding bindings inductionHypothesis =>
    rw [bindAll_cons, bindAll_cons]
    apply inductionHypothesis (by simpa using sameLength)
    intro index isFree
    by_cases isFirst : index = binding.1
    · simp [List.getElem?_set, isFirst, sameLength]
    · have isFirst' : ¬ binding.1 = index := fun same => isFirst same.symm
      simp only [List.getElem?_set, isFirst', if_false]
      exact sameElsewhere index (by simpa [isFirst] using isFree)

/-- Bindings of the same positions do not leave a trace in the following rounds. -/
theorem mem_bindEach {positions : Set ℕ} {rounds : List (Bindings Var Obj)}
    (samePositions : ∀ bindings ∈ rounds, ∀ index, index ∈ bindings.map Prod.fst ↔ index ∈ positions)
    {args : List (BuildArgument Var Obj)} :
    args ∈ bindEach effectArgs rounds ↔ ∃ bindings ∈ rounds, args = bindAll effectArgs bindings := by
  induction rounds generalizing effectArgs with
  | nil => simp [bindEach]
  | cons bindings rounds inductionHypothesis =>
    rw [List.forall_mem_cons] at samePositions
    rw [bindEach, List.mem_cons, inductionHypothesis samePositions.2, List.exists_mem_cons_iff]
    have overwritten : ∀ later ∈ rounds,
        bindAll (bindAll effectArgs bindings) later = bindAll effectArgs later := by
      intro later member
      apply bindAll_congr (by simp)
      intro index isFree
      apply getElem?_bindAll_of_notMem
      rwa [samePositions.1 index, ← samePositions.2 later member index]
    constructor
    · rintro (isFirst | ⟨later, member, isLater⟩)
      · exact Or.inl isFirst
      · exact Or.inr ⟨later, member, isLater.trans (overwritten later member)⟩
    · rintro (isFirst | ⟨later, member, isLater⟩)
      · exact Or.inl isFirst
      · exact Or.inr ⟨later, member, isLater.trans (overwritten later member).symm⟩

/-! ## Instances from bindings -/

/-- All bindings of atoms for the conditions. -/
def BindingOf (conditions premises : List (BuildAtom Pred Var Obj))
    (binding : ℕ × BuildArgument Var Obj) : Prop :=
  ∃ pair ∈ conditions.zip premises, binding ∈ getBindings pair.2 pair.1

theorem forall₂_atomFits_iff :
    List.Forall₂ (AtomFits values) conditions premises ↔
      List.Forall₂ AtomMatches conditions premises ∧
        ∀ binding, BindingOf conditions premises binding → values binding.1 = binding.2 := by
  simp only [List.forall₂_iff_zip, atomFits_iff, BindingOf]
  constructor
  · rintro ⟨sameLength, fits⟩
    refine ⟨⟨sameLength, fun inZip => (fits inZip).1⟩, ?_⟩
    rintro binding ⟨⟨condition, premise⟩, inZip, isBinding⟩
    exact (fits inZip).2 binding isBinding
  · rintro ⟨⟨sameLength, isMatch⟩, agrees⟩
    exact ⟨sameLength, fun inZip => ⟨isMatch inZip, fun binding isBinding =>
      agrees binding ⟨_, inZip, isBinding⟩⟩⟩

/-- Written bindings give the instance of the effect. -/
theorem effectUnder_eq_bindAll (wellNumbered : WellNumbered effect conditions)
    (agrees : ∀ binding ∈ bindings, values binding.1 = binding.2)
    (keys : ∀ index, index ∈ bindings.map Prod.fst ↔ ∃ condition ∈ conditions, index ∈ positionsOf condition) :
    effectUnder values effect = ⟨effect.predicate, bindAll effect.args bindings⟩ := by
  have sameArgs : effect.args.map (BuildArgument.value values) = bindAll effect.args bindings := by
    apply List.ext_getElem?
    intro index
    rw [List.getElem?_map]
    by_cases isBound : index ∈ bindings.map Prod.fst
    · obtain ⟨condition, member, occurs⟩ := (keys index).mp isBound
      have atIndex := wellNumbered.ofEffect condition member index occurs
      rw [getElem?_bindAll_of_mem agrees isBound (List.getElem?_eq_some_iff.mp atIndex).1, atIndex]
      rfl
    · rw [getElem?_bindAll_of_notMem isBound]
      cases atIndex : effect.args[index]? with
      | none => rfl
      | some argument =>
        cases argument with
        | term kept => rfl
        | position number =>
          obtain rfl := wellNumbered.ownPosition index number atIndex
          exact absurd ((keys _).mpr (wellNumbered.bound _ atIndex)) isBound
  rw [effectUnder, sameArgs]

/-- Two atoms may bind the same number, but not to different objects. -/
def Functional (bindings : Bindings Var Obj) : Prop :=
  ∀ index first second, (index, first) ∈ bindings → (index, second) ∈ bindings → first = second

theorem exists_values_iff :
    (∃ values : ℕ → BuildArgument Var Obj, ∀ binding ∈ bindings, values binding.1 = binding.2) ↔
      Functional bindings := by
  constructor
  · rintro ⟨values, agrees⟩ index first second isFirst isSecond
    exact (agrees _ isFirst).symm.trans (agrees _ isSecond)
  · intro functional
    classical
    let values : ℕ → BuildArgument Var Obj := fun index =>
      if known : ∃ object, (index, object) ∈ bindings then known.choose else .position index
    refine ⟨values, ?_⟩
    rintro ⟨index, object⟩ isBinding
    have known : ∃ object, (index, object) ∈ bindings := ⟨object, isBinding⟩
    simp only [values, known, dif_pos]
    exact functional index _ _ known.choose_spec isBinding

/-- The instances for given premises, read off their bindings in any order. -/
theorem buildInfers_iff (wellNumbered : WellNumbered effect conditions)
    (isMatch : List.Forall₂ AtomMatches conditions premises)
    (areBindings : ∀ binding, binding ∈ bindings ↔ BindingOf conditions premises binding) :
    BuildInfers effect conditions premises conclusion ↔
      Functional bindings ∧ conclusion = ⟨effect.predicate, bindAll effect.args bindings⟩ := by
  have keys : ∀ index, index ∈ bindings.map Prod.fst ↔ ∃ condition ∈ conditions, index ∈ positionsOf condition := by
    intro index
    simp only [List.mem_map, Prod.exists, exists_and_right, exists_eq_right, areBindings, BindingOf]
    have ⟨sameLength, inZipMatch⟩ := List.forall₂_iff_zip.mp isMatch
    constructor
    · rintro ⟨object, condition, premise, inZip, isBinding⟩
      refine ⟨condition, (List.of_mem_zip inZip).1, ?_⟩
      exact (mem_keys_getBindings (inZipMatch inZip).sameLength).mp (List.mem_map_of_mem isBinding)
    · rintro ⟨condition, member, occurs⟩
      obtain ⟨place, inRange, rfl⟩ := List.getElem_of_mem member
      have inZip : (conditions[place], premises[place]) ∈ conditions.zip premises := by
        have inPremises : place < premises.length := by omega
        exact mem_zip_of_getElem? (List.getElem?_eq_getElem inRange) (List.getElem?_eq_getElem inPremises)
      have isKey := (mem_keys_getBindings (inZipMatch inZip).sameLength).mpr occurs
      obtain ⟨⟨_, object⟩, isBinding, rfl⟩ := List.mem_map.mp isKey
      exact ⟨object, _, _, inZip, isBinding⟩
  have fits_iff : ∀ values : ℕ → BuildArgument Var Obj,
      List.Forall₂ (AtomFits values) conditions premises ↔ ∀ binding ∈ bindings, values binding.1 = binding.2 := by
    intro values
    simp only [forall₂_atomFits_iff, isMatch, true_and, areBindings]
  constructor
  · rintro ⟨values, fits, rfl⟩
    have agrees := (fits_iff values).mp fits
    exact ⟨exists_values_iff.mp ⟨values, agrees⟩, effectUnder_eq_bindAll wellNumbered agrees keys⟩
  · rintro ⟨functional, rfl⟩
    obtain ⟨values, agrees⟩ := exists_values_iff.mpr functional
    exact ⟨values, (fits_iff values).mpr agrees, (effectUnder_eq_bindAll wellNumbered agrees keys).symm⟩

/-! ## What the rules remember -/

/-- The atoms recorded for each condition, after one more atom. -/
def recordAtom (seen : List (List (BuildAtom Pred Var Obj)))
    (newAtom : BuildAtom Pred Var Obj) (condIndex : ℕ) : List (List (BuildAtom Pred Var Obj)) :=
  seen.set condIndex (seen.getD condIndex [] ++ [newAtom])

/-- One premise for each condition. -/
abbrev ChosenFrom (seen : List (List (BuildAtom Pred Var Obj)))
    (premises : List (BuildAtom Pred Var Obj)) : Prop :=
  List.Forall₂ (fun atoms premise => premise ∈ atoms) seen premises

/-- The recorded atoms match the conditions. -/
abbrev SeenMatch (conditions : List (BuildAtom Pred Var Obj))
    (seen : List (List (BuildAtom Pred Var Obj))) : Prop :=
  List.Forall₂ (fun condition atoms => ∀ atom ∈ atoms, AtomMatches condition atom) conditions seen

theorem SeenMatch.chosen {seen : List (List (BuildAtom Pred Var Obj))} (seenMatch : SeenMatch conditions seen)
    (chosen : ChosenFrom seen premises) : List.Forall₂ AtomMatches conditions premises := by
  induction seenMatch generalizing premises with
  | nil =>
    cases chosen
    exact .nil
  | cons isMatch _ inductionHypothesis =>
    cases chosen with
    | cons isChosen chosen => exact .cons (isMatch _ isChosen) (inductionHypothesis chosen)

/-- What a rule with these recorded atoms has to enqueue for the atom recorded last. -/
def FiresExactly (effect : BuildAtom Pred Var Obj) (conditions : List (BuildAtom Pred Var Obj))
    (seen : List (List (BuildAtom Pred Var Obj))) (newAtom : BuildAtom Pred Var Obj)
    (condIndex : ℕ) (fired : List (BuildAtom Pred Var Obj)) : Prop :=
  ∀ conclusion, conclusion ∈ fired ↔ ∃ premises, ChosenFrom seen premises ∧ premises[condIndex]? = some newAtom ∧
    BuildInfers effect conditions premises conclusion

theorem functional_getBindings
    (distinct : (positionsOf condition).Nodup) : Functional (getBindings atom condition) := by
  intro index first second isFirst isSecond
  obtain ⟨place, isPosition, isFirst⟩ := mem_getBindings.mp isFirst
  obtain ⟨place', isPosition', isSecond⟩ := mem_getBindings.mp isSecond
  have samePlace : place = place' := samePlace_of_nodup distinct isPosition isPosition'
  subst samePlace
  exact Option.some.inj (isFirst.symm.trans isSecond)

theorem ProjectRule.fires {rule : ProjectRule Pred Var Obj}
    (wellNumbered : WellNumbered rule.effect [rule.condition]) {seen : List (BuildAtom Pred Var Obj)} (isMatch : AtomMatches rule.condition newAtom) (isSeen : newAtom ∈ seen) :
    FiresExactly rule.effect [rule.condition] [seen] newAtom 0 (rule.fire newAtom) := by
  intro conclusion
  have areBindings : ∀ binding, binding ∈ getBindings newAtom rule.condition ↔
      BindingOf [rule.condition] [newAtom] binding := by simp [BindingOf]
  have infers_iff : BuildInfers rule.effect [rule.condition] [newAtom] conclusion ↔ _ :=
    buildInfers_iff wellNumbered (.cons isMatch .nil) areBindings
  have functional : Functional (getBindings newAtom rule.condition) :=
    functional_getBindings (wellNumbered.distinct _ List.mem_cons_self)
  rw [ProjectRule.fire, List.mem_singleton]
  constructor
  · intro isFired
    exact ⟨[newAtom], .cons isSeen .nil, rfl, infers_iff.mpr ⟨functional, isFired⟩⟩
  · rintro ⟨premises, chosen, isNew, infers⟩
    obtain ⟨premise, rest, _, isEmpty, rfl⟩ := List.forall₂_cons_left_iff.mp chosen
    obtain rfl := List.forall₂_nil_left_iff.mp isEmpty
    obtain rfl : premise = newAtom := by simpa using isNew
    exact (infers_iff.mp infers).2

/-! ## Joins -/

namespace JoinRule

variable [DecidableEq Var] [DecidableEq Obj] {rule : JoinRule Pred Var Obj}

theorem mem_commonVars :
    index ∈ rule.commonVars ↔ index ∈ positionsOf rule.left ∧ index ∈ positionsOf rule.right := by
  simp [commonVars]

/-- The atoms recorded for the two conditions, by their keys. -/
def Records (rule : JoinRule Pred Var Obj)
    (left right : List (BuildAtom Pred Var Obj)) : Prop :=
  ∀ key, (rule.atomsByKey.1.get? key).getD [] = left.filter (fun atom => rule.key atom 0 = key) ∧
    (rule.atomsByKey.2.get? key).getD [] = right.filter (fun atom => rule.key atom 1 = key)

theorem getD_insert_append {index : KeyIndex Pred Var Obj} {atoms : List (BuildAtom Pred Var Obj)}
    {keyOf : BuildAtom Pred Var Obj → JoinKey Var Obj}
    (records : ∀ key, (index.get? key).getD [] = atoms.filter (fun atom => keyOf atom = key))
    (newAtom : BuildAtom Pred Var Obj) (key : JoinKey Var Obj) :
    ((index.insert (keyOf newAtom) ((index.get? (keyOf newAtom)).getD [] ++ [newAtom])).get? key).getD [] =
      (atoms ++ [newAtom]).filter (fun atom => keyOf atom = key) := by
  by_cases isKey : key = keyOf newAtom
  · subst isKey
    simp [records]
  · have isOther : keyOf newAtom ≠ key := fun same => isKey same.symm
    rw [Dictionary.get?_insert_of_ne isKey, records]
    simp [isOther]

theorem Records.update_left {left right : List (BuildAtom Pred Var Obj)} (records : rule.Records left right)
    (newAtom : BuildAtom Pred Var Obj) :
    (rule.updateIndex newAtom 0).Records (left ++ [newAtom]) right := fun key =>
  ⟨getD_insert_append (fun key => (records key).1) newAtom key, (records key).2⟩

theorem Records.update_right {left right : List (BuildAtom Pred Var Obj)} (records : rule.Records left right)
    (newAtom : BuildAtom Pred Var Obj) :
    (rule.updateIndex newAtom 1).Records left (right ++ [newAtom]) := fun key =>
  ⟨(records key).1, getD_insert_append (fun key => (records key).2) newAtom key⟩

/-- Where a number occurs in a condition, an atom has what it binds. -/
theorem getElem?_idxOf (distinct : (positionsOf condition).Nodup) {object : BuildArgument Var Obj} (isBinding : (index, object) ∈ getBindings atom condition) :
    atom.args[condition.args.idxOf (.position index)]? = some object := by
  obtain ⟨place, isPosition, isObject⟩ := mem_getBindings.mp isBinding
  have occurs := List.mem_of_getElem? isPosition
  have isFirst : condition.args[condition.args.idxOf (.position index)]? = some (.position index) := by
    rw [List.getElem?_eq_getElem (List.idxOf_lt_length_iff.mpr occurs), List.getElem_idxOf]
  rw [← samePlace_of_nodup distinct isPosition isFirst]
  exact isObject

/-- Two atoms have the same key when they bind the common numbers alike. -/
theorem functional_append_iff {first second firstCond secondCond : BuildAtom Pred Var Obj}
    (firstMatch : AtomMatches firstCond first) (secondMatch : AtomMatches secondCond second)
    (firstDistinct : (positionsOf firstCond).Nodup) (secondDistinct : (positionsOf secondCond).Nodup) :
    Functional (getBindings first firstCond ++ getBindings second secondCond) ↔
      ∀ index, index ∈ positionsOf firstCond → index ∈ positionsOf secondCond →
        first.args[firstCond.args.idxOf (.position index)]? = second.args[secondCond.args.idxOf (.position index)]? := by
  constructor
  · intro functional index inFirst inSecond
    obtain ⟨⟨_, object⟩, isBinding, rfl⟩ := List.mem_map.mp ((mem_keys_getBindings firstMatch.sameLength).mpr inFirst)
    obtain ⟨⟨_, object'⟩, isBinding', sameIndex⟩ :=
      List.mem_map.mp ((mem_keys_getBindings secondMatch.sameLength).mpr inSecond)
    dsimp only at sameIndex
    subst sameIndex
    rw [getElem?_idxOf firstDistinct isBinding, getElem?_idxOf secondDistinct isBinding']
    exact congrArg some (functional _ _ _ (List.mem_append_left _ isBinding) (List.mem_append_right _ isBinding'))
  · intro sameKey
    have across : ∀ index object object', (index, object) ∈ getBindings first firstCond →
        (index, object') ∈ getBindings second secondCond → object = object' := by
      intro index object object' isBinding isBinding'
      have inFirst := (mem_keys_getBindings firstMatch.sameLength).mp (List.mem_map_of_mem (f := Prod.fst) isBinding)
      have inSecond := (mem_keys_getBindings secondMatch.sameLength).mp (List.mem_map_of_mem (f := Prod.fst) isBinding')
      have same := sameKey index inFirst inSecond
      rw [getElem?_idxOf firstDistinct isBinding, getElem?_idxOf secondDistinct isBinding'] at same
      exact Option.some.inj same
    intro index object object' isBinding isBinding'
    rw [List.mem_append] at isBinding isBinding'
    rcases isBinding with inFirst | inSecond <;> rcases isBinding' with inFirst' | inSecond'
    · exact functional_getBindings firstDistinct index object object' inFirst inFirst'
    · exact across index object object' inFirst inSecond'
    · exact (across index object' object inFirst' inSecond).symm
    · exact functional_getBindings secondDistinct index object object' inSecond inSecond'

theorem key_eq_key_iff {first second : BuildAtom Pred Var Obj} :
    rule.key first 0 = rule.key second 1 ↔
      ∀ index, index ∈ positionsOf rule.left → index ∈ positionsOf rule.right →
        first.args[rule.left.args.idxOf (.position index)]? = second.args[rule.right.args.idxOf (.position index)]? := by
  simp only [key, commonVarPositions, List.map_map, List.map_inj_left, mem_commonVars, and_imp]
  rfl

theorem mem_fire
    (partnersMatch : ∀ atom ∈ rule.partners newAtom condIndex, AtomMatches (rule.condition (1 - condIndex)) atom) :
    conclusion ∈ rule.fire newAtom condIndex ↔ ∃ partner ∈ rule.partners newAtom condIndex,
      conclusion = ⟨rule.effect.predicate, bindAll rule.effect.args (getBindings newAtom (rule.condition condIndex) ++
        getBindings partner (rule.condition (1 - condIndex)))⟩ := by
  have samePositions : ∀ bindings ∈ (rule.partners newAtom condIndex).map
      (fun atom => getBindings atom (rule.condition (1 - condIndex))), ∀ index,
        index ∈ bindings.map Prod.fst ↔ index ∈ {index | index ∈ positionsOf (rule.condition (1 - condIndex))} := by
    intro bindings member index
    obtain ⟨atom, isPartner, rfl⟩ := List.mem_map.mp member
    exact mem_keys_getBindings (partnersMatch atom isPartner).sameLength
  simp only [fire, List.mem_map, mem_bindEach samePositions, prepareEffect, bindAll_append]
  constructor
  · rintro ⟨args, ⟨bindings, ⟨partner, isPartner, rfl⟩, rfl⟩, rfl⟩
    exact ⟨partner, isPartner, rfl⟩
  · rintro ⟨partner, isPartner, rfl⟩
    exact ⟨_, ⟨_, ⟨partner, isPartner, rfl⟩, rfl⟩, rfl⟩

variable {left right : List (BuildAtom Pred Var Obj)} {newAtom : BuildAtom Pred Var Obj}

theorem Records.mem_partners_left (records : rule.Records left right) {partner : BuildAtom Pred Var Obj} :
    partner ∈ rule.partners newAtom 0 ↔ partner ∈ right ∧ rule.key newAtom 0 = rule.key partner 1 := by
  have found := (records (rule.key newAtom 0)).2
  simp [partners, found, eq_comm]

theorem Records.mem_partners_right (records : rule.Records left right) {partner : BuildAtom Pred Var Obj} :
    partner ∈ rule.partners newAtom 1 ↔ partner ∈ left ∧ rule.key partner 0 = rule.key newAtom 1 := by
  have found := (records (rule.key newAtom 1)).1
  simp [partners, found]

/-- The instances of a join, read off the bindings of both atoms. -/
theorem buildInfers_pair_iff (wellNumbered : WellNumbered rule.effect [rule.left, rule.right])
    {first second : BuildAtom Pred Var Obj} (firstMatch : AtomMatches rule.left first)
    (secondMatch : AtomMatches rule.right second)
    (areBindings : ∀ binding, binding ∈ bindings ↔
      binding ∈ getBindings first rule.left ++ getBindings second rule.right) :
    BuildInfers rule.effect [rule.left, rule.right] [first, second] conclusion ↔
      rule.key first 0 = rule.key second 1 ∧
        conclusion = ⟨rule.effect.predicate, bindAll rule.effect.args bindings⟩ := by
  have isFunctional : Functional bindings ↔ rule.key first 0 = rule.key second 1 := by
    rw [key_eq_key_iff, ← functional_append_iff firstMatch secondMatch (wellNumbered.distinct _ (by simp))
      (wellNumbered.distinct _ (by simp))]
    simp only [Functional, areBindings]
  rw [← isFunctional]
  apply buildInfers_iff wellNumbered (.cons firstMatch (.cons secondMatch .nil))
  intro binding
  simp [areBindings, BindingOf]

/-- The new atom is the premise for the first condition. -/
theorem fires_left (wellNumbered : WellNumbered rule.effect [rule.left, rule.right]) (records : rule.Records left right)
    (seenMatch : SeenMatch [rule.left, rule.right] [left, right]) (isSeen : newAtom ∈ left) :
    FiresExactly rule.effect [rule.left, rule.right] [left, right] newAtom 0 (rule.fire newAtom 0) := by
  intro conclusion
  have leftMatch : ∀ atom ∈ left, AtomMatches rule.left atom := by simpa using (List.forall₂_cons.mp seenMatch).1
  have rightMatch : ∀ atom ∈ right, AtomMatches rule.right atom := by
    simpa using (List.forall₂_cons.mp (List.forall₂_cons.mp seenMatch).2).1
  rw [mem_fire fun atom isPartner => rightMatch atom (records.mem_partners_left.mp isPartner).1]
  constructor
  · rintro ⟨partner, isPartner, isConclusion⟩
    obtain ⟨isRecorded, sameKey⟩ := records.mem_partners_left.mp isPartner
    refine ⟨[newAtom, partner], .cons isSeen (.cons isRecorded .nil), rfl, ?_⟩
    exact (buildInfers_pair_iff wellNumbered (leftMatch _ isSeen) (rightMatch _ isRecorded) fun _ => Iff.rfl).mpr
      ⟨sameKey, isConclusion⟩
  · rintro ⟨premises, chosen, isNew, infers⟩
    obtain ⟨first, rest, _, restChosen, rfl⟩ := List.forall₂_cons_left_iff.mp chosen
    obtain ⟨second, rest, isRecorded, isEmpty, rfl⟩ := List.forall₂_cons_left_iff.mp restChosen
    obtain rfl := List.forall₂_nil_left_iff.mp isEmpty
    obtain rfl : first = newAtom := by simpa using isNew
    obtain ⟨sameKey, isConclusion⟩ := (buildInfers_pair_iff wellNumbered (leftMatch _ isSeen) (rightMatch _ isRecorded)
      fun _ => Iff.rfl).mp infers
    exact ⟨second, records.mem_partners_left.mpr ⟨isRecorded, sameKey⟩, isConclusion⟩

/-- The new atom is the premise for the second condition. -/
theorem fires_right (wellNumbered : WellNumbered rule.effect [rule.left, rule.right]) (records : rule.Records left right)
    (seenMatch : SeenMatch [rule.left, rule.right] [left, right]) (isSeen : newAtom ∈ right) :
    FiresExactly rule.effect [rule.left, rule.right] [left, right] newAtom 1 (rule.fire newAtom 1) := by
  intro conclusion
  have leftMatch : ∀ atom ∈ left, AtomMatches rule.left atom := by simpa using (List.forall₂_cons.mp seenMatch).1
  have rightMatch : ∀ atom ∈ right, AtomMatches rule.right atom := by
    simpa using (List.forall₂_cons.mp (List.forall₂_cons.mp seenMatch).2).1
  have areBindings : ∀ (first second : BuildAtom Pred Var Obj) (binding : ℕ × BuildArgument Var Obj),
      binding ∈ getBindings second rule.right ++ getBindings first rule.left ↔
        binding ∈ getBindings first rule.left ++ getBindings second rule.right := by
    intro first second binding
    simp [or_comm]
  rw [mem_fire fun atom isPartner => leftMatch atom (records.mem_partners_right.mp isPartner).1]
  constructor
  · rintro ⟨partner, isPartner, isConclusion⟩
    obtain ⟨isRecorded, sameKey⟩ := records.mem_partners_right.mp isPartner
    refine ⟨[partner, newAtom], .cons isRecorded (.cons isSeen .nil), rfl, ?_⟩
    exact (buildInfers_pair_iff wellNumbered (leftMatch _ isRecorded) (rightMatch _ isSeen) (areBindings _ _)).mpr
      ⟨sameKey, isConclusion⟩
  · rintro ⟨premises, chosen, isNew, infers⟩
    obtain ⟨first, rest, isRecorded, restChosen, rfl⟩ := List.forall₂_cons_left_iff.mp chosen
    obtain ⟨second, rest, _, isEmpty, rfl⟩ := List.forall₂_cons_left_iff.mp restChosen
    obtain rfl := List.forall₂_nil_left_iff.mp isEmpty
    obtain rfl : second = newAtom := by simpa using isNew
    obtain ⟨sameKey, isConclusion⟩ := (buildInfers_pair_iff wellNumbered (leftMatch _ isRecorded) (rightMatch _ isSeen)
      (areBindings _ _)).mp infers
    exact ⟨first, records.mem_partners_right.mpr ⟨isRecorded, sameKey⟩, isConclusion⟩

end JoinRule

/-! ## Products -/

theorem exists_split_of_getElem? {α : Type*} {list : List α} {place : ℕ} {element : α}
    (atPlace : list[place]? = some element) :
    ∃ before after, list = before ++ element :: after ∧ before.length = place := by
  obtain ⟨inRange, rfl⟩ := List.getElem?_eq_some_iff.mp atPlace
  refine ⟨list.take place, list.drop (place + 1), ?_, by simp; omega⟩
  rw [← List.drop_eq_getElem_cons inRange, List.take_append_drop]

theorem forall₂_append_left_iff {α β : Type*} {R : α → β → Prop} {first second : List α} {list : List β} :
    List.Forall₂ R (first ++ second) list ↔ ∃ before after, list = before ++ after ∧ List.Forall₂ R first before ∧
      List.Forall₂ R second after := by
  induction first generalizing list with
  | nil => simp
  | cons element first inductionHypothesis =>
    rw [List.cons_append, List.forall₂_cons_left_iff]
    constructor
    · rintro ⟨related, rest, isRelated, restRelated, rfl⟩
      obtain ⟨before, after, rfl, isFirst, isSecond⟩ := inductionHypothesis.mp restRelated
      exact ⟨related :: before, after, rfl, .cons isRelated isFirst, isSecond⟩
    · rintro ⟨before, after, rfl, isFirst, isSecond⟩
      obtain ⟨related, rest, isRelated, restRelated, rfl⟩ := List.forall₂_cons_left_iff.mp isFirst
      exact ⟨related, rest ++ after, isRelated, inductionHypothesis.mpr ⟨rest, after, rfl, restRelated, isSecond⟩, rfl⟩

theorem mem_cartesian {α : Type*} {lists : List (List α)} {choice : List α} :
    choice ∈ cartesian lists ↔ List.Forall₂ (· ∈ ·) choice lists := by
  induction lists generalizing choice with
  | nil => simp [cartesian]
  | cons list lists inductionHypothesis =>
    simp only [cartesian, List.mem_flatMap, List.mem_map, inductionHypothesis, List.forall₂_cons_right_iff]
    constructor
    · rintro ⟨first, isFirst, rest, isRest, rfl⟩
      exact ⟨first, rest, isFirst, isRest, rfl⟩
    · rintro ⟨first, rest, isFirst, isRest, rfl⟩
      exact ⟨first, isFirst, rest, isRest, rfl⟩

/-- Leaving out the entry with one index. -/
theorem zipIdx_filter_ne {α : Type*} (before after : List α) (element : α) :
    ((before ++ element :: after).zipIdx.filter fun entry => entry.2 ≠ before.length).map Prod.fst = before ++ after := by
  have keepsBefore : before.zipIdx.filter (fun entry => decide (entry.2 ≠ before.length)) = before.zipIdx := by
    apply List.filter_eq_self.mpr
    rintro ⟨entry, index⟩ member
    have := List.snd_lt_of_mem_zipIdx member
    simp only [decide_eq_true_eq]
    omega
  have keepsAfter : (after.zipIdx (before.length + 1)).filter (fun entry => decide (entry.2 ≠ before.length)) =
      after.zipIdx (before.length + 1) := by
    apply List.filter_eq_self.mpr
    rintro ⟨entry, index⟩ member
    have := List.le_snd_of_mem_zipIdx member
    simp only [decide_eq_true_eq]
    omega
  rw [List.zipIdx_append, List.zipIdx_cons, List.filter_append, List.filter_cons]
  simp only [Nat.zero_add, ne_eq, not_true_eq_false, decide_false, Bool.false_eq_true, if_false]
  simp only [ne_eq] at keepsBefore keepsAfter
  rw [keepsBefore, keepsAfter, List.map_append, List.zipIdx_map_fst, List.zipIdx_map_fst]

namespace ProductRule

variable {rule : ProductRule Pred Var Obj} {seen : List (List (BuildAtom Pred Var Obj))}
  {newAtom : BuildAtom Pred Var Obj}

structure Records (rule : ProductRule Pred Var Obj)
    (seen : List (List (BuildAtom Pred Var Obj))) : Prop where
  atoms : rule.atomsByIndex = seen
  empty : rule.emptyAtomListNo = seen.countP List.isEmpty

theorem Records.update (records : rule.Records seen) (inRange : condIndex < seen.length) :
    (rule.updateIndex newAtom condIndex).Records (recordAtom seen newAtom condIndex) := by
  obtain ⟨before, after, isSeen, isPlace⟩ := exists_split_of_getElem? (List.getElem?_eq_getElem inRange)
  have found : rule.atomsByIndex.getD condIndex [] = seen[condIndex] := by
    rw [records.atoms, List.getD_eq_getElem?_getD, List.getElem?_eq_getElem inRange, Option.getD_some]
  constructor
  · rw [updateIndex, recordAtom, records.atoms]
  · simp only [updateIndex, found, records.empty, recordAtom]
    have atoms : seen.getD condIndex [] = seen[condIndex] := by
      rw [List.getD_eq_getElem?_getD, List.getElem?_eq_getElem inRange, Option.getD_some]
    rw [atoms]
    generalize seen[condIndex] = current at isSeen
    subst isSeen isPlace
    cases current <;> simp [List.countP_append]

/-- A rule with an empty list has no premises to choose. -/
theorem not_chosenFrom_of_empty (hasEmpty : seen.countP List.isEmpty ≠ 0) : ¬ ChosenFrom seen premises := by
  intro chosen
  apply hasEmpty
  rw [List.countP_eq_zero]
  intro atoms member isEmpty
  rw [List.isEmpty_iff] at isEmpty
  subst isEmpty
  obtain ⟨place, inRange, isEmpty⟩ := List.getElem_of_mem member
  have sameLength := chosen.length_eq
  have inPlace := (List.forall₂_iff_get.mp chosen).2 place inRange (by omega)
  simp [isEmpty] at inPlace

/-- Numbers do not occur in two conditions of a product. -/
def Independent (conditions : List (BuildAtom Pred Var Obj)) : Prop :=
  conditions.Pairwise fun first second => ∀ index ∈ positionsOf first, index ∉ positionsOf second

theorem functional_of_independent
    (distinct : ∀ condition ∈ conditions, (positionsOf condition).Nodup) (independent : Independent conditions)
    (isMatch : List.Forall₂ AtomMatches conditions premises)
    (areBindings : ∀ binding ∈ bindings, BindingOf conditions premises binding) : Functional bindings := by
  intro index first second isFirst isSecond
  obtain ⟨⟨condition, premise⟩, inZip, isFirst⟩ := areBindings _ isFirst
  obtain ⟨⟨condition', premise'⟩, inZip', isSecond⟩ := areBindings _ isSecond
  have ⟨_, inZipMatch⟩ := List.forall₂_iff_zip.mp isMatch
  have occurs := (mem_keys_getBindings (inZipMatch inZip).sameLength).mp (List.mem_map_of_mem (f := Prod.fst) isFirst)
  have occurs' := (mem_keys_getBindings (inZipMatch inZip').sameLength).mp (List.mem_map_of_mem (f := Prod.fst) isSecond)
  obtain ⟨place, atPlace⟩ := List.mem_iff_getElem?.mp inZip
  obtain ⟨place', atPlace'⟩ := List.mem_iff_getElem?.mp inZip'
  obtain ⟨isCondition, isPremise⟩ := List.getElem?_zip_eq_some.mp atPlace
  obtain ⟨isCondition', isPremise'⟩ := List.getElem?_zip_eq_some.mp atPlace'
  obtain ⟨inRange, isCondition⟩ := List.getElem?_eq_some_iff.mp isCondition
  obtain ⟨inRange', isCondition'⟩ := List.getElem?_eq_some_iff.mp isCondition'
  dsimp only at isCondition isPremise isCondition' isPremise' occurs occurs'
  rcases Nat.lt_trichotomy place place' with less | same | greater
  · have apart := List.pairwise_iff_getElem.mp independent place place' inRange inRange' less
    rw [isCondition, isCondition'] at apart
    exact absurd occurs' (apart index occurs)
  · subst same
    have sameCondition : condition = condition' := isCondition.symm.trans isCondition'
    have samePremise : premise = premise' := Option.some.inj (isPremise.symm.trans isPremise')
    subst sameCondition samePremise
    exact functional_getBindings (distinct _ (List.of_mem_zip inZip).1) index first second isFirst isSecond
  · have apart := List.pairwise_iff_getElem.mp independent place' place inRange' inRange greater
    rw [isCondition, isCondition'] at apart
    exact absurd occurs (apart index occurs')

/-- What the recorded atoms of a condition bind. -/
def factor (entry : BuildAtom Pred Var Obj × List (BuildAtom Pred Var Obj)) :
    List (Bindings Var Obj) :=
  entry.2.map fun atom => getBindings atom entry.1

theorem mem_cartesian_factors {entries : List (BuildAtom Pred Var Obj × List (BuildAtom Pred Var Obj))}
    {choice : List (Bindings Var Obj)} :
    choice ∈ cartesian (entries.map factor) ↔ ∃ others, List.Forall₂ (fun entry atom => atom ∈ entry.2) entries others ∧
      choice = List.zipWith (fun entry atom => getBindings atom entry.1) entries others := by
  rw [mem_cartesian]
  induction entries generalizing choice with
  | nil => simp
  | cons entry entries inductionHypothesis =>
    rw [List.map_cons, List.forall₂_cons_right_iff]
    constructor
    · rintro ⟨bindings, rest, isChosen, restChosen, rfl⟩
      obtain ⟨atom, isAtom, rfl⟩ := List.mem_map.mp isChosen
      obtain ⟨others, areOthers, rfl⟩ := inductionHypothesis.mp restChosen
      exact ⟨atom :: others, .cons isAtom areOthers, rfl⟩
    · rintro ⟨others, areOthers, rfl⟩
      obtain ⟨atom, rest, isAtom, restOthers, rfl⟩ := List.forall₂_cons_left_iff.mp areOthers
      exact ⟨_, _, List.mem_map_of_mem isAtom, inductionHypothesis.mpr ⟨rest, restOthers, rfl⟩, rfl⟩

theorem mem_flatten_zipWith {entries : List (BuildAtom Pred Var Obj × List (BuildAtom Pred Var Obj))}
    {others : List (BuildAtom Pred Var Obj)} {binding : ℕ × BuildArgument Var Obj} :
    binding ∈ (List.zipWith (fun entry atom => getBindings atom entry.1) entries others).flatten ↔
      BindingOf (entries.map Prod.fst) others binding := by
  induction entries generalizing others with
  | nil => simp [BindingOf]
  | cons entry entries inductionHypothesis =>
    cases others with
    | nil => simp [BindingOf]
    | cons atom others =>
      rw [List.zipWith_cons_cons, List.flatten_cons, List.mem_append, inductionHypothesis]
      simp [BindingOf]

abbrev Entry (Pred Var Obj : Type) :=
  BuildAtom Pred Var Obj × List (BuildAtom Pred Var Obj)

theorem bindingOf_split {before after : List (Entry Pred Var Obj)} {entry : Entry Pred Var Obj}
    {first second : List (BuildAtom Pred Var Obj)} (sameLength : before.length = first.length)
    (binding : ℕ × BuildArgument Var Obj) :
    BindingOf ((before ++ entry :: after).map Prod.fst) (first ++ newAtom :: second) binding ↔
      binding ∈ getBindings newAtom entry.1 ∨ BindingOf ((before ++ after).map Prod.fst) (first ++ second) binding := by
  simp only [BindingOf, List.map_append, List.map_cons]
  rw [List.zip_append (by simpa using sameLength), List.zip_append (by simpa using sameLength), List.zip_cons_cons]
  simp only [List.mem_append, List.mem_cons]
  constructor
  · rintro ⟨pair, inFirst | rfl | inSecond, isBinding⟩
    · exact Or.inr ⟨pair, Or.inl inFirst, isBinding⟩
    · exact Or.inl isBinding
    · exact Or.inr ⟨pair, Or.inr inSecond, isBinding⟩
  · rintro (isBinding | ⟨pair, inFirst | inSecond, isBinding⟩)
    · exact ⟨_, Or.inr (Or.inl rfl), isBinding⟩
    · exact ⟨pair, Or.inl inFirst, isBinding⟩
    · exact ⟨pair, Or.inr (Or.inr inSecond), isBinding⟩

theorem mem_fire {before after : List (Entry Pred Var Obj)} {entry : Entry Pred Var Obj}
    (isEntries : rule.conditions.zip rule.atomsByIndex = before ++ entry :: after)
    (atCondition : rule.conditions[before.length]? = some entry.1) (noneEmpty : rule.emptyAtomListNo = 0)
    (othersMatch : ∀ other ∈ before ++ after, ∀ atom ∈ other.2, AtomMatches other.1 atom) :
    conclusion ∈ rule.fire newAtom before.length ↔
      ∃ others, List.Forall₂ (fun entry atom => atom ∈ entry.2) (before ++ after) others ∧
        conclusion = ⟨rule.effect.predicate, bindAll rule.effect.args (getBindings newAtom entry.1 ++
          (List.zipWith (fun entry atom => getBindings atom entry.1) (before ++ after) others).flatten)⟩ := by
  have factors : rule.bindingsFactors before.length = (before ++ after).map factor := by
    rw [← zipIdx_filter_ne before after entry, List.map_map, ← isEntries]
    rfl
  have rounds : ∀ bindings ∈ (cartesian ((before ++ after).map factor)).map List.flatten, ∀ index,
      index ∈ bindings.map Prod.fst ↔ index ∈ {index | ∃ other ∈ before ++ after, index ∈ positionsOf other.1} := by
    intro bindings member index
    obtain ⟨choice, isChoice, rfl⟩ := List.mem_map.mp member
    obtain ⟨others, chosen, rfl⟩ := mem_cartesian_factors.mp isChoice
    have ⟨sameLength, inZip⟩ := List.forall₂_iff_zip.mp chosen
    constructor
    · intro isKey
      obtain ⟨⟨_, object⟩, isBinding, rfl⟩ := List.mem_map.mp isKey
      obtain ⟨⟨condition, atom⟩, inPairs, isBinding⟩ := mem_flatten_zipWith.mp isBinding
      rw [List.zip_map_left, List.mem_map] at inPairs
      obtain ⟨⟨other, atom⟩, isPair, same⟩ := inPairs
      cases same
      have isMatch := othersMatch other (List.of_mem_zip isPair).1 atom (inZip isPair)
      exact ⟨other, (List.of_mem_zip isPair).1,
        (mem_keys_getBindings isMatch.sameLength).mp (List.mem_map_of_mem (f := Prod.fst) isBinding)⟩
    · rintro ⟨other, isOther, occurs⟩
      obtain ⟨place, inRange, rfl⟩ := List.getElem_of_mem isOther
      have inOthers : place < others.length := by omega
      have isPair := mem_zip_of_getElem? (List.getElem?_eq_getElem inRange) (List.getElem?_eq_getElem inOthers)
      have isMatch := othersMatch _ isOther _ (inZip isPair)
      obtain ⟨⟨_, object⟩, isBinding, rfl⟩ := List.mem_map.mp ((mem_keys_getBindings isMatch.sameLength).mpr occurs)
      have inPairs : ((before ++ after)[place].1, others[place]) ∈ ((before ++ after).map Prod.fst).zip others := by
        rw [List.zip_map_left]
        exact List.mem_map_of_mem (f := Prod.map Prod.fst id) isPair
      exact List.mem_map_of_mem (f := Prod.fst) (mem_flatten_zipWith.mpr ⟨_, inPairs, isBinding⟩)
  simp only [fire, atCondition, noneEmpty, ne_eq, not_true_eq_false, if_false, factors, List.mem_map,
    mem_bindEach rounds, prepareEffect, bindAll_append]
  constructor
  · rintro ⟨args, ⟨bindings, ⟨choice, isChoice, rfl⟩, rfl⟩, rfl⟩
    obtain ⟨others, chosen, rfl⟩ := mem_cartesian_factors.mp isChoice
    exact ⟨others, chosen, rfl⟩
  · rintro ⟨others, chosen, rfl⟩
    exact ⟨_, ⟨_, ⟨_, mem_cartesian_factors.mpr ⟨others, chosen, rfl⟩, rfl⟩, rfl⟩, rfl⟩

/-- With a premise for every other condition there is exactly one instance. -/
theorem buildInfers_split_iff {before after : List (Entry Pred Var Obj)} {entry : Entry Pred Var Obj}
    (wellNumbered : WellNumbered effect ((before ++ entry :: after).map Prod.fst))
    (independent : Independent ((before ++ entry :: after).map Prod.fst))
    {first second : List (BuildAtom Pred Var Obj)} (sameLength : before.length = first.length)
    (isMatch : List.Forall₂ AtomMatches ((before ++ entry :: after).map Prod.fst) (first ++ newAtom :: second)) :
    BuildInfers effect ((before ++ entry :: after).map Prod.fst) (first ++ newAtom :: second) conclusion ↔
      conclusion = ⟨effect.predicate, bindAll effect.args (getBindings newAtom entry.1 ++
        (List.zipWith (fun entry atom => getBindings atom entry.1) (before ++ after) (first ++ second)).flatten)⟩ := by
  have areBindings : ∀ binding, binding ∈ getBindings newAtom entry.1 ++
      (List.zipWith (fun entry atom => getBindings atom entry.1) (before ++ after) (first ++ second)).flatten ↔
        BindingOf ((before ++ entry :: after).map Prod.fst) (first ++ newAtom :: second) binding := by
    intro binding
    rw [bindingOf_split sameLength, List.mem_append, mem_flatten_zipWith]
  rw [buildInfers_iff wellNumbered isMatch areBindings, and_iff_right_iff_imp]
  intro _
  exact functional_of_independent wellNumbered.distinct independent isMatch fun binding => (areBindings binding).mp

theorem fires (wellNumbered : WellNumbered rule.effect rule.conditions) (independent : Independent rule.conditions)
    (records : rule.Records seen) (seenMatch : SeenMatch rule.conditions seen)
    {atoms : List (BuildAtom Pred Var Obj)} (atIndex : seen[condIndex]? = some atoms)
    (isSeen : newAtom ∈ atoms) :
    FiresExactly rule.effect rule.conditions seen newAtom condIndex (rule.fire newAtom condIndex) := by
  have ⟨sameLength, pairsMatch⟩ := List.forall₂_iff_zip.mp seenMatch
  have inRange := (List.getElem?_eq_some_iff.mp atIndex).1
  have atCondition := List.getElem?_eq_getElem (sameLength ▸ inRange : condIndex < rule.conditions.length)
  have atEntry := List.getElem?_zip_eq_some (z := (rule.conditions[condIndex], atoms)).mpr ⟨atCondition, atIndex⟩
  obtain ⟨before, after, isEntries, rfl⟩ := exists_split_of_getElem? atEntry
  generalize rule.conditions[before.length] = condition at atCondition isEntries
  have isConditions : (before ++ (condition, atoms) :: after).map Prod.fst = rule.conditions := by
    rw [← isEntries, List.map_fst_zip (by omega)]
  have isSeenLists : (before ++ (condition, atoms) :: after).map Prod.snd = seen := by
    rw [← isEntries, List.map_snd_zip (by omega)]
  have entriesMatch : ∀ entry ∈ before ++ (condition, atoms) :: after, ∀ atom ∈ entry.2, AtomMatches entry.1 atom := by
    rw [← isEntries]
    rintro ⟨condition, atoms⟩ member
    exact pairsMatch member
  intro conclusion
  by_cases noneEmpty : rule.emptyAtomListNo = 0
  · have othersMatch : ∀ other ∈ before ++ after, ∀ atom ∈ other.2, AtomMatches other.1 atom := by
      intro other isOther
      apply entriesMatch
      simp only [List.mem_append, List.mem_cons] at isOther ⊢
      tauto
    rw [mem_fire (records.atoms ▸ isEntries) atCondition noneEmpty othersMatch]
    constructor
    · rintro ⟨others, chosen, isConclusion⟩
      obtain ⟨first, second, rfl, firstChosen, secondChosen⟩ := forall₂_append_left_iff.mp chosen
      have allChosen : ChosenFrom seen (first ++ newAtom :: second) := by
        rw [← isSeenLists, ChosenFrom, List.forall₂_map_left_iff]
        exact forall₂_append_left_iff.mpr ⟨_, _, rfl, firstChosen, .cons isSeen secondChosen⟩
      refine ⟨first ++ newAtom :: second, allChosen, ?_, ?_⟩
      · rw [firstChosen.length_eq, List.getElem?_append_right le_rfl, Nat.sub_self, List.getElem?_cons_zero]
      · have isMatch := seenMatch.chosen allChosen
        rw [← isConditions] at isMatch wellNumbered independent ⊢
        exact (buildInfers_split_iff wellNumbered independent firstChosen.length_eq isMatch).mpr isConclusion
    · rintro ⟨premises, allChosen, isNew, infers⟩
      have isMatch := seenMatch.chosen allChosen
      rw [← isSeenLists, ChosenFrom, List.forall₂_map_left_iff] at allChosen
      obtain ⟨first, rest, rfl, firstChosen, restChosen⟩ := forall₂_append_left_iff.mp allChosen
      obtain ⟨premise, second, _, secondChosen, rfl⟩ := List.forall₂_cons_left_iff.mp restChosen
      rw [firstChosen.length_eq, List.getElem?_append_right le_rfl, Nat.sub_self, List.getElem?_cons_zero] at isNew
      cases isNew
      rw [← isConditions] at isMatch wellNumbered independent infers
      exact ⟨first ++ second, forall₂_append_left_iff.mpr ⟨_, _, rfl, firstChosen, secondChosen⟩,
        (buildInfers_split_iff wellNumbered independent firstChosen.length_eq isMatch).mp infers⟩
  · have nothing : rule.fire newAtom before.length = [] := by simp [fire, atCondition, noneEmpty]
    rw [nothing]
    constructor
    · intro isFired
      cases isFired
    · rintro ⟨premises, chosen, _⟩
      exact absurd chosen (not_chosenFrom_of_empty (records.empty ▸ noneEmpty))

end ProductRule

/-! ## All types of rules -/

namespace BuildRule

variable [DecidableEq Var] [DecidableEq Obj] {rule : BuildRule Pred Var Obj}
  {seen : List (List (BuildAtom Pred Var Obj))} {newAtom : BuildAtom Pred Var Obj}

/-- A projection remembers nothing. -/
def Records : BuildRule Pred Var Obj → List (List (BuildAtom Pred Var Obj)) → Prop
  | join rule, seen => ∃ left right, seen = [left, right] ∧ rule.Records left right
  | product rule, seen => rule.Records seen
  | project _, _ => True

/-- Only joins have conditions with a common variable. -/
def Separate : BuildRule Pred Var Obj → Prop
  | product rule => ProductRule.Independent rule.conditions
  | join _ | project _ => True

structure Ready (rule : BuildRule Pred Var Obj) : Prop where
  wellNumbered : WellNumbered rule.effect rule.conditions
  separate : rule.Separate

@[simp] theorem effect_updateIndex (condIndex : ℕ) : (rule.updateIndex newAtom condIndex).effect = rule.effect := by
  cases rule <;> rfl

@[simp] theorem conditions_updateIndex (condIndex : ℕ) :
    (rule.updateIndex newAtom condIndex).conditions = rule.conditions := by
  cases rule <;> rfl

theorem Ready.updateIndex (ready : rule.Ready) (condIndex : ℕ) : (rule.updateIndex newAtom condIndex).Ready := by
  constructor
  · simpa using ready.wellNumbered
  · cases rule with
    | join rule => exact trivial
    | product rule => exact ready.separate
    | project rule => exact trivial

theorem Records.updateIndex (records : rule.Records seen) (inRange : condIndex < seen.length) :
    (rule.updateIndex newAtom condIndex).Records (recordAtom seen newAtom condIndex) := by
  cases rule with
  | project rule => exact trivial
  | product rule => exact ProductRule.Records.update records inRange
  | join rule =>
    obtain ⟨left, right, rfl, records⟩ := records
    have isSide : condIndex = 0 ∨ condIndex = 1 := by
      simp only [List.length_cons, List.length_nil] at inRange
      omega
    cases isSide with
    | inl isLeft =>
      subst isLeft
      exact ⟨_, _, rfl, records.update_left newAtom⟩
    | inr isRight =>
      subst isRight
      exact ⟨_, _, rfl, records.update_right newAtom⟩

theorem fires (ready : rule.Ready) (records : rule.Records seen) (seenMatch : SeenMatch rule.conditions seen) {atoms : List (BuildAtom Pred Var Obj)} (atIndex : seen[condIndex]? = some atoms)
    (isSeen : newAtom ∈ atoms) :
    FiresExactly rule.effect rule.conditions seen newAtom condIndex (rule.fire newAtom condIndex) := by
  cases rule with
  | product rule => exact ProductRule.fires ready.wellNumbered ready.separate records seenMatch atIndex isSeen
  | project rule =>
    obtain ⟨atoms', rest, isMatch, isEmpty, rfl⟩ := List.forall₂_cons_left_iff.mp seenMatch
    obtain rfl := List.forall₂_nil_left_iff.mp isEmpty
    have isOnly : condIndex = 0 := by
      have inRange := (List.getElem?_eq_some_iff.mp atIndex).1
      simp only [List.length_cons, List.length_nil] at inRange
      omega
    subst isOnly
    cases atIndex
    exact ProjectRule.fires ready.wellNumbered (isMatch newAtom isSeen) isSeen
  | join rule =>
    obtain ⟨left, right, rfl, records⟩ := records
    have isSide : condIndex = 0 ∨ condIndex = 1 := by
      have inRange := (List.getElem?_eq_some_iff.mp atIndex).1
      simp only [List.length_cons, List.length_nil] at inRange
      omega
    cases isSide with
    | inl isLeft =>
      subst isLeft
      cases atIndex
      exact JoinRule.fires_left ready.wellNumbered records seenMatch isSeen
    | inr isRight =>
      subst isRight
      cases atIndex
      exact JoinRule.fires_right ready.wellNumbered records seenMatch isSeen

end BuildRule

end CutPlan.Translate
