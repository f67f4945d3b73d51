import CutPlan.Translate.ModelComputation

/-! # Rules and their numbered forms

In the normal form of the grounding program no atom has a variable twice, conditions bind the variables of the
effect, and no rule is without conditions.  A variable that the effect does not have is not numbered, and its
occurrences in two conditions are not compared: the numbered form has the loose instances of the rule.  They are
its instances when conditions share only variables of the effect.
-/

set_option linter.unusedSectionVars false

namespace CutPlan.Translate

open CutPlan.Lib

variable {Pred Var Obj : Type}
  {condition effect : SymbolicAtom Pred Var Obj} {name : Var} {index : ℕ}

def variablesOf (atom : SymbolicAtom Pred Var Obj) : List Var :=
  atom.args.filterMap fun
    | .var name => some name
    | .object _ => none

@[simp] theorem mem_variablesOf {atom : SymbolicAtom Pred Var Obj} :
    name ∈ variablesOf atom ↔ .var name ∈ atom.args := by
  simp only [variablesOf, List.mem_filterMap]
  constructor
  · rintro ⟨argument, member, isName⟩
    cases argument with
    | var other =>
      cases isName
      exact member
    | object known => cases isName
  · intro member
    exact ⟨_, member, rfl⟩

structure NormalRule (rule : DatalogRule Pred Var Obj) : Prop where
  distinctEffect : (variablesOf rule.effect).Nodup
  distinctConditions : ∀ condition ∈ rule.conditions, (variablesOf condition).Nodup
  bound : ∀ name ∈ variablesOf rule.effect, OccursIn name rule.conditions
  nonempty : rule.conditions ≠ []

/-- Conditions share variables of the effect only. -/
def KeepsShared (rule : DatalogRule Pred Var Obj) : Prop :=
  rule.conditions.Pairwise fun first second =>
    ∀ name ∈ variablesOf first, name ∈ variablesOf second → name ∈ variablesOf rule.effect

section Numbering

variable [DecidableEq Var]

theorem variablesOf_cons (predicate : Pred) (argument : Term Var Obj) (args : List (Term Var Obj)) :
    variablesOf ⟨predicate, argument :: args⟩ =
      match argument with
      | .var name => name :: variablesOf ⟨predicate, args⟩
      | .object _ => variablesOf ⟨predicate, args⟩ := by
  cases argument <;> rfl

/-- Variables that occur once are mapped to the place where they occur. -/
theorem get?_foldl_renameMap (predicate : Pred) {args : List (Term Var Obj)}
    (distinct : (variablesOf (⟨predicate, args⟩ : SymbolicAtom Pred Var Obj)).Nodup) {start : ℕ}
    {map : Dictionary Var ℕ} :
    ((args.zipIdx start).foldl
      (fun map (entry : Term Var Obj × ℕ) =>
        match entry.1 with
        | .var name => map.insert name entry.2
        | .object _ => map) map).get? name = some index ↔
      (∃ place : ℕ, args[place]? = some (.var name) ∧ index = start + place) ∨
        .var name ∉ args ∧ map.get? name = some index := by
  induction args generalizing start map with
  | nil => simp
  | cons argument args inductionHypothesis =>
    rw [List.zipIdx_cons, List.foldl_cons]
    have shifted : (∃ place : ℕ, (argument :: args)[place]? = some (.var name) ∧ index = start + place) ↔
        argument = .var name ∧ index = start ∨
          ∃ place : ℕ, args[place]? = some (.var name) ∧ index = start + 1 + place := by
      constructor
      · rintro ⟨place, atPlace, isIndex⟩
        cases place with
        | zero => exact Or.inl ⟨Option.some.inj atPlace, isIndex⟩
        | succ place => exact Or.inr ⟨place, atPlace, by omega⟩
      · rintro (⟨isArgument, isIndex⟩ | ⟨place, atPlace, isIndex⟩)
        · exact ⟨0, congrArg some isArgument, isIndex⟩
        · exact ⟨place + 1, atPlace, by omega⟩
    rw [shifted]
    cases argument with
    | object known =>
      rw [inductionHypothesis (by simpa [variablesOf_cons] using distinct)]
      simp
    | var other =>
      rw [variablesOf_cons] at distinct
      obtain ⟨isFirst, distinct⟩ := List.nodup_cons.mp distinct
      rw [inductionHypothesis distinct]
      by_cases same : name = other
      · subst same
        have notLater : Term.var name ∉ args := by simpa using isFirst
        have noPlace : ¬ ∃ place : ℕ, args[place]? = some (.var name) ∧ index = start + 1 + place := by
          rintro ⟨place, atPlace, _⟩
          exact notLater (List.mem_of_getElem? atPlace)
        simp only [notLater, noPlace, not_false_eq_true, true_and, false_or, or_false, List.mem_cons_self,
          not_true_eq_false, false_and, Dictionary.get?_insert_self, Option.some.injEq]
        exact eq_comm
      · have same' : ¬ other = name := fun isSame => same isSame.symm
        simp [Dictionary.get?_insert_of_ne same, same, same']

theorem get?_renameMap (distinct : (variablesOf effect).Nodup) :
    (renameMap effect).get? name = some index ↔ effect.args[index]? = some (.var name) := by
  rw [renameMap]
  refine (get?_foldl_renameMap effect.predicate distinct).trans ?_
  simp

theorem get?_renameMap_eq_none (distinct : (variablesOf effect).Nodup) :
    (renameMap effect).get? name = none ↔ name ∉ variablesOf effect := by
  rw [Option.eq_none_iff_forall_ne_some, mem_variablesOf, List.mem_iff_getElem?]
  simp [get?_renameMap distinct]

theorem numberArgument_eq_position (distinct : (variablesOf effect).Nodup) {argument : Term Var Obj} :
    numberArgument (renameMap effect) argument = .position index ↔
      ∃ name, argument = .var name ∧ effect.args[index]? = some (.var name) := by
  cases argument with
  | object known => simp [numberArgument]
  | var name =>
    rw [numberArgument]
    cases isIndex : (renameMap effect).get? name with
    | none =>
      have unknown := (get?_renameMap_eq_none distinct).mp isIndex
      simp only [reduceCtorEq, false_iff, not_exists, not_and]
      intro other isOther atPlace
      cases isOther
      exact unknown (mem_variablesOf.mpr (List.mem_of_getElem? atPlace))
    | some known =>
      have atPlace := (get?_renameMap distinct).mp isIndex
      simp only [BuildArgument.position.injEq, Term.var.injEq, exists_eq_left']
      rw [← get?_renameMap distinct, isIndex, Option.some.injEq]

theorem getElem?_numbered_effect :
    (effect.args.zipIdx.map numberEffectArgument)[index]? =
      (effect.args[index]?).map fun argument => numberEffectArgument (argument, index) := by
  simp [List.getElem?_map, List.getElem?_zipIdx, Option.map_map, Function.comp_def]

theorem mem_positionsOf_numbered (distinct : (variablesOf effect).Nodup) :
    index ∈ positionsOf (⟨condition.predicate, condition.args.map (numberArgument (renameMap effect))⟩ :
      BuildAtom Pred Var Obj) ↔
        ∃ name ∈ variablesOf condition, effect.args[index]? = some (.var name) := by
  simp only [mem_positionsOf, List.mem_map, numberArgument_eq_position distinct, mem_variablesOf]
  constructor
  · rintro ⟨_, member, name, rfl, atPlace⟩
    exact ⟨name, member, atPlace⟩
  · rintro ⟨name, member, atPlace⟩
    exact ⟨_, member, name, rfl, atPlace⟩

theorem nodup_positionsOf_numbered
    (distinctEffect : (variablesOf effect).Nodup) (distinct : (variablesOf condition).Nodup) :
    (positionsOf (⟨condition.predicate, condition.args.map (numberArgument (renameMap effect))⟩ :
      BuildAtom Pred Var Obj)).Nodup := by
  have asVariables : positionsOf (⟨condition.predicate, condition.args.map (numberArgument (renameMap effect))⟩ :
      BuildAtom Pred Var Obj) = (variablesOf condition).filterMap (renameMap effect).get? := by
    rw [positionsOf, variablesOf, List.filterMap_map, List.filterMap_filterMap]
    apply List.filterMap_congr
    intro argument _
    cases argument with
    | object known => rfl
    | var name =>
      cases isIndex : (renameMap effect).get? name <;>
        simp [numberArgument, isIndex, BuildArgument.position?]
  rw [asVariables]
  apply distinct.filterMap
  intro first second index isFirst isSecond
  have atFirst := (get?_renameMap distinctEffect).mp isFirst
  have atSecond := (get?_renameMap distinctEffect).mp isSecond
  exact Term.var.inj (Option.some.inj (atFirst.symm.trans atSecond))

theorem NormalRule.wellNumbered {rule : DatalogRule Pred Var Obj} (normal : NormalRule rule) :
    WellNumbered (variablesToNumbers rule.effect rule.conditions).1
      (variablesToNumbers rule.effect rule.conditions).2 := by
  have atEffect : ∀ index number : ℕ,
      (variablesToNumbers rule.effect rule.conditions).1.args[index]? = some (.position number) ↔
        index = number ∧ ∃ name, rule.effect.args[index]? = some (.var name) := by
    intro index number
    simp only [variablesToNumbers, getElem?_numbered_effect, Option.map_eq_some_iff]
    constructor
    · rintro ⟨argument, atIndex, isPosition⟩
      cases argument with
      | object known => cases isPosition
      | var name =>
        cases isPosition
        exact ⟨rfl, name, atIndex⟩
    · rintro ⟨rfl, name, atIndex⟩
      exact ⟨_, atIndex, rfl⟩
  constructor
  · intro index number isPosition
    exact ((atEffect index number).mp isPosition).1.symm
  · intro condition member index occurs
    obtain ⟨original, isCondition, rfl⟩ := List.mem_map.mp member
    obtain ⟨name, _, atIndex⟩ := (mem_positionsOf_numbered normal.distinctEffect).mp occurs
    exact (atEffect index index).mpr ⟨rfl, name, atIndex⟩
  · intro index isPosition
    obtain ⟨_, name, atIndex⟩ := (atEffect index index).mp isPosition
    obtain ⟨condition, isCondition, occurs⟩ := normal.bound name (mem_variablesOf.mpr (List.mem_of_getElem? atIndex))
    refine ⟨_, List.mem_map_of_mem isCondition, ?_⟩
    exact (mem_positionsOf_numbered normal.distinctEffect).mpr ⟨name, mem_variablesOf.mpr occurs, atIndex⟩
  · intro condition member
    obtain ⟨original, isCondition, rfl⟩ := List.mem_map.mp member
    exact nodup_positionsOf_numbered normal.distinctEffect (normal.distinctConditions original isCondition)

/-! ## Instances -/

/-- The values of the numbers under values of the variables. -/
def numberValues (effect : SymbolicAtom Pred Var Obj) (valuation : Valuation Var Obj) (index : ℕ) :
    BuildArgument Var Obj :=
  match effect.args[index]? with
  | some (.var name) => .term (.object (valuation name))
  | _ => .position index

theorem factAtom_ground_effect (effect : SymbolicAtom Pred Var Obj) (valuation : Valuation Var Obj) :
    factAtom (effect.ground valuation) =
      effectUnder (numberValues effect valuation) ⟨effect.predicate, effect.args.zipIdx.map numberEffectArgument⟩ := by
  have sameArgs : (effect.args.map (Term.value valuation)).map (fun object => BuildArgument.term (.object object)) =
      (effect.args.zipIdx.map numberEffectArgument).map (BuildArgument.value (numberValues effect valuation)) := by
    apply List.ext_getElem?
    intro index
    rw [List.map_map, List.getElem?_map, List.getElem?_map, getElem?_numbered_effect]
    cases atIndex : effect.args[index]? with
    | none => rfl
    | some argument =>
      cases argument with
      | object known => rfl
      | var name => simp [numberEffectArgument, BuildArgument.value, numberValues, atIndex]
  simp only [factAtom, Atom.ground, effectUnder, sameArgs]

theorem atomFits_factAtom_ground (distinct : (variablesOf effect).Nodup) (valuation : Valuation Var Obj) :
    AtomFits (numberValues effect valuation)
      ⟨condition.predicate, condition.args.map (numberArgument (renameMap effect))⟩
      (factAtom (condition.ground valuation)) := by
  refine ⟨rfl, ?_⟩
  simp only [factAtom, Atom.ground, List.forall₂_map_left_iff, List.forall₂_map_right_iff, List.forall₂_same]
  intro argument _
  cases argument with
  | object known => rfl
  | var name =>
    rw [numberArgument]
    cases isIndex : (renameMap effect).get? name with
    | none => exact trivial
    | some index =>
      have atIndex := (get?_renameMap distinct).mp isIndex
      simp [BuildArgument.Fits, numberValues, atIndex]

/-- Every condition may have its own values for the variables that the effect does not have. -/
def InfersLoosely (rule : DatalogRule Pred Var Obj) (premises : List (Atom Pred Obj))
    (conclusion : Atom Pred Obj) : Prop :=
  ∃ valuation : Valuation Var Obj, conclusion = rule.effect.ground valuation ∧
    List.Forall₂ (fun condition premise => ∃ own : Valuation Var Obj,
      (∀ name ∈ variablesOf rule.effect, own name = valuation name) ∧ premise = condition.ground own)
      rule.conditions premises

theorem InfersLoosely.of_infers {rule : DatalogRule Pred Var Obj} {premises : List (Atom Pred Obj)}
    {conclusion : Atom Pred Obj} (infers : rule.Infers premises conclusion) :
    InfersLoosely rule premises conclusion := by
  obtain ⟨valuation, rfl, rfl⟩ := infers
  refine ⟨valuation, rfl, ?_⟩
  rw [List.forall₂_map_right_iff, List.forall₂_same]
  exact fun condition _ => ⟨valuation, fun _ _ => rfl, rfl⟩

theorem numberValues_congr {first second : Valuation Var Obj}
    (same : ∀ name ∈ variablesOf effect, first name = second name) : numberValues effect first = numberValues effect second := by
  funext index
  simp only [numberValues]
  cases atIndex : effect.args[index]? with
  | none => rfl
  | some argument =>
    cases argument with
    | object known => rfl
    | var name => simp only [same name (mem_variablesOf.mpr (List.mem_of_getElem? atIndex))]

/-- Loose instances of a rule are instances of its numbered form. -/
theorem InfersLoosely.buildInfers {rule : DatalogRule Pred Var Obj}
    (distinct : (variablesOf rule.effect).Nodup) {premises : List (Atom Pred Obj)}
    {conclusion : Atom Pred Obj} (infers : InfersLoosely rule premises conclusion) :
    BuildInfers (variablesToNumbers rule.effect rule.conditions).1
      (variablesToNumbers rule.effect rule.conditions).2 (premises.map factAtom) (factAtom conclusion) := by
  obtain ⟨valuation, rfl, instances⟩ := infers
  refine ⟨numberValues rule.effect valuation, ?_, factAtom_ground_effect rule.effect valuation⟩
  simp only [variablesToNumbers, List.forall₂_map_left_iff, List.forall₂_map_right_iff]
  refine instances.imp fun condition premise => ?_
  rintro ⟨own, agrees, rfl⟩
  rw [← numberValues_congr agrees]
  exact atomFits_factAtom_ground distinct own

/-! ## The instances of the numbered form -/

/-- What the premises have where a variable occurs in the conditions. -/
def OccursAs (conditions : List (SymbolicAtom Pred Var Obj)) (premises : List (Atom Pred Obj))
    (name : Var) (object : Obj) : Prop :=
  ∃ pair ∈ conditions.zip premises, ∃ place : ℕ,
    pair.1.args[place]? = some (.var name) ∧ pair.2.args[place]? = some object

variable {rule : DatalogRule Pred Var Obj} {premises : List (Atom Pred Obj)}
  {values : ℕ → BuildArgument Var Obj}

abbrev PremisesFit (rule : DatalogRule Pred Var Obj) (premises : List (Atom Pred Obj))
    (values : ℕ → BuildArgument Var Obj) : Prop :=
  List.Forall₂ (AtomFits values) (variablesToNumbers rule.effect rule.conditions).2 (premises.map factAtom)

/-- The numbered conditions and the facts, argument by argument. -/
theorem PremisesFit.slot (fit : PremisesFit rule premises values) {premise : Atom Pred Obj}
    (isPair : (condition, premise) ∈ rule.conditions.zip premises) :
    premise.predicate = condition.predicate ∧ condition.args.length = premise.args.length ∧
      ∀ (place : ℕ) argument object, condition.args[place]? = some argument → premise.args[place]? = some object →
        (numberArgument (renameMap rule.effect) argument).Fits values (.term (.object object)) := by
  simp only [PremisesFit, variablesToNumbers, List.forall₂_map_left_iff, List.forall₂_map_right_iff] at fit
  have ⟨samePredicate, slots⟩ := (List.forall₂_iff_zip.mp fit).2 isPair
  refine ⟨samePredicate, by simpa [factAtom] using slots.length_eq, ?_⟩
  intro place argument object isArgument isObject
  obtain ⟨inCondition, rfl⟩ := List.getElem?_eq_some_iff.mp isArgument
  obtain ⟨inPremise, rfl⟩ := List.getElem?_eq_some_iff.mp isObject
  have slot := (List.forall₂_iff_get.mp slots).2 place (by simpa using inCondition) (by simpa [factAtom] using inPremise)
  simpa [factAtom] using slot

/-- The value of the number of a variable is what the premises have for the variable. -/
theorem PremisesFit.value (fit : PremisesFit rule premises values) (distinct :
    (variablesOf rule.effect).Nodup) {object : Obj} (occurs : OccursAs rule.conditions premises name object)
    (atIndex : rule.effect.args[index]? = some (.var name)) : values index = .term (.object object) := by
  obtain ⟨⟨condition, premise⟩, isPair, place, isVariable, isObject⟩ := occurs
  have slot := (fit.slot isPair).2.2 place _ _ isVariable isObject
  rw [(numberArgument_eq_position distinct).mpr ⟨name, rfl, atIndex⟩] at slot
  exact slot.symm

theorem samePlace_of_distinct {atom : SymbolicAtom Pred Var Obj} (distinct :
    (variablesOf atom).Nodup) {first second : ℕ} (isFirst : atom.args[first]? = some (.var name))
    (isSecond : atom.args[second]? = some (.var name)) : first = second := by
  by_contra different
  have twice : List.Sublist [Term.var name, .var name] atom.args := by
    rcases Nat.lt_or_gt_of_ne different with less | greater
    · exact sublist_of_getElem? less isFirst isSecond
    · exact sublist_of_getElem? greater isSecond isFirst
  have twiceNamed : List.Sublist [name, name] (variablesOf atom) := by
    have := twice.filterMap fun
      | .var name => some name
      | .object _ => none
    simpa [variablesOf] using this
  exact List.nodup_iff_sublist.mp distinct name twiceNamed

/-- A premise that fits is an instance of the condition. -/
theorem PremisesFit.exists_own (fit : PremisesFit rule premises values) (distinct :
    (variablesOf rule.effect).Nodup) (distinctCondition : (variablesOf condition).Nodup)
    {premise : Atom Pred Obj} (isPair : (condition, premise) ∈ rule.conditions.zip premises)
    {valuation : Valuation Var Obj}
    (isValue : ∀ (index : ℕ) name, rule.effect.args[index]? = some (.var name) →
      ∀ object, values index = .term (.object object) → valuation name = object) :
    ∃ own : Valuation Var Obj,
      (∀ name ∈ variablesOf rule.effect, own name = valuation name) ∧ premise = condition.ground own := by
  classical
  obtain ⟨samePredicate, sameLength, slots⟩ := fit.slot isPair
  let own : Valuation Var Obj := fun name =>
    if occurs : ∃ object, ∃ place : ℕ, condition.args[place]? = some (.var name) ∧ premise.args[place]? = some object then
      occurs.choose
    else valuation name
  have isOwn : ∀ {name} {place : ℕ} {object}, condition.args[place]? = some (.var name) →
      premise.args[place]? = some object → own name = object := by
    intro name place object isVariable isObject
    have occurs : ∃ object, ∃ place : ℕ, condition.args[place]? = some (.var name) ∧ premise.args[place]? = some object :=
      ⟨object, place, isVariable, isObject⟩
    obtain ⟨place', isVariable', isObject'⟩ := occurs.choose_spec
    obtain rfl := samePlace_of_distinct distinctCondition isVariable isVariable'
    simp only [own, dif_pos occurs]
    exact Option.some.inj (isObject'.symm.trans isObject)
  refine ⟨own, fun name inEffect => ?_, ?_⟩
  · by_cases occurs : ∃ object, ∃ place : ℕ, condition.args[place]? = some (.var name) ∧ premise.args[place]? = some object
    · obtain ⟨object, place, isVariable, isObject⟩ := occurs
      obtain ⟨index, atIndex⟩ := List.mem_iff_getElem?.mp (mem_variablesOf.mp inEffect)
      rw [isOwn isVariable isObject]
      exact (isValue index name atIndex object
        (fit.value distinct ⟨_, isPair, place, isVariable, isObject⟩ atIndex)).symm
    · simp only [own, dif_neg occurs]
  · have sameArgs : premise.args = condition.args.map (Term.value own) := by
      apply List.ext_getElem (by simpa using sameLength.symm)
      intro place inPremise inCondition
      rw [List.length_map] at inCondition
      rw [List.getElem_map]
      have isArgument := List.getElem?_eq_getElem inCondition
      have isObject := List.getElem?_eq_getElem inPremise
      have slot := slots place _ _ isArgument isObject
      cases kind : condition.args[place] with
      | object known =>
        simp only [kind, numberArgument, BuildArgument.Fits, BuildArgument.term.injEq, Term.object.injEq] at slot
        exact slot
      | var name =>
        rw [kind] at isArgument
        exact (isOwn isArgument isObject).symm
    simp only [Atom.ground, ← samePredicate, ← sameArgs]

/-- Instances of the numbered form are loose instances of the rule. -/
theorem infersLoosely_of_buildInfers [Inhabited Obj] (normal : NormalRule rule) {conclusion : BuildAtom Pred Var Obj}
    (infers : BuildInfers (variablesToNumbers rule.effect rule.conditions).1
      (variablesToNumbers rule.effect rule.conditions).2 (premises.map factAtom) conclusion) :
    ∃ fact, conclusion = factAtom fact ∧ InfersLoosely rule premises fact := by
  obtain ⟨values, fit, rfl⟩ := infers
  have fit : PremisesFit rule premises values := fit
  classical
  let valuation : Valuation Var Obj := fun name =>
    if known : ∃ object, ∃ index : ℕ, rule.effect.args[index]? = some (.var name) ∧ values index = .term (.object object) then
      known.choose
    else default
  have isValue : ∀ (index : ℕ) name, rule.effect.args[index]? = some (.var name) →
      ∀ object, values index = .term (.object object) → valuation name = object := by
    intro index name atIndex object hasValue
    have known : ∃ object, ∃ index : ℕ, rule.effect.args[index]? = some (.var name) ∧
        values index = .term (.object object) := ⟨object, index, atIndex, hasValue⟩
    obtain ⟨index', atIndex', hasValue'⟩ := known.choose_spec
    obtain rfl := samePlace_of_distinct normal.distinctEffect atIndex atIndex'
    simp only [valuation, dif_pos known]
    exact Term.object.inj (BuildArgument.term.inj (hasValue'.symm.trans hasValue))
  have sameLength : rule.conditions.length = premises.length := by
    simpa [variablesToNumbers] using fit.length_eq
  -- The variables of the effect occur in conditions, so that their numbers have objects as values.
  have hasObject : ∀ (index : ℕ) name, rule.effect.args[index]? = some (.var name) →
      values index = .term (.object (valuation name)) := by
    intro index name atIndex
    have inEffect := mem_variablesOf.mpr (List.mem_of_getElem? atIndex)
    obtain ⟨condition, isCondition, occurs⟩ := normal.bound name inEffect
    obtain ⟨number, inConditions, rfl⟩ := List.getElem_of_mem isCondition
    have isPair := mem_zip_of_getElem? (List.getElem?_eq_getElem inConditions)
      (List.getElem?_eq_getElem (sameLength ▸ inConditions : number < premises.length))
    obtain ⟨place, isVariable⟩ := List.mem_iff_getElem?.mp occurs
    have inPremise : place < (premises[number]).args.length := by
      have := (List.getElem?_eq_some_iff.mp isVariable).1
      have := (fit.slot isPair).2.1
      omega
    have occursAs : OccursAs rule.conditions premises name (premises[number]).args[place] :=
      ⟨_, isPair, place, isVariable, List.getElem?_eq_getElem inPremise⟩
    have hasValue := fit.value normal.distinctEffect occursAs atIndex
    rw [hasValue, isValue index name atIndex _ hasValue]
  refine ⟨rule.effect.ground valuation, ?_, valuation, rfl, ?_⟩
  · rw [factAtom_ground_effect]
    have sameArgs : ((rule.effect.args.zipIdx.map numberEffectArgument).map (BuildArgument.value values)) =
        (rule.effect.args.zipIdx.map numberEffectArgument).map
          (BuildArgument.value (numberValues rule.effect valuation)) := by
      apply List.ext_getElem?
      intro index
      rw [List.getElem?_map, getElem?_numbered_effect, List.getElem?_map, getElem?_numbered_effect]
      cases atIndex : rule.effect.args[index]? with
      | none => rfl
      | some argument =>
        cases argument with
        | object known => rfl
        | var name =>
          simp only [Option.map_some, numberEffectArgument, BuildArgument.value, numberValues, atIndex,
            hasObject index name atIndex]
    simp only [effectUnder, variablesToNumbers, sameArgs]
  · rw [List.forall₂_iff_zip]
    refine ⟨sameLength, fun {condition premise} isPair => ?_⟩
    exact fit.exists_own normal.distinctEffect (normal.distinctConditions condition (List.of_mem_zip isPair).1) isPair isValue

/-- When conditions share only variables of the effect, their own values can be merged. -/
theorem InfersLoosely.infers (keepsShared : KeepsShared rule) {conclusion : Atom Pred Obj}
    (loosely : InfersLoosely rule premises conclusion) : rule.Infers premises conclusion := by
  classical
  obtain ⟨valuation, rfl, instances⟩ := loosely
  obtain ⟨sameLength, slots⟩ := List.forall₂_iff_get.mp instances
  have each : ∀ index : Fin rule.conditions.length, ∃ own : Valuation Var Obj,
      (∀ name ∈ variablesOf rule.effect, own name = valuation name) ∧
        premises.get ⟨index.1, sameLength ▸ index.2⟩ = rule.conditions[index.1].ground own :=
    fun index => slots index.1 index.2 (sameLength ▸ index.2)
  choose owns agree areInstances using each
  let merged : Valuation Var Obj := fun name =>
    if occurs : ∃ index : Fin rule.conditions.length, name ∈ variablesOf rule.conditions[index.1] then
      owns occurs.choose name
    else valuation name
  have onEffect : ∀ name ∈ variablesOf rule.effect, merged name = valuation name := by
    intro name inEffect
    simp only [merged]
    split
    · exact agree _ name inEffect
    · rfl
  have onCondition : ∀ (index : Fin rule.conditions.length) name, name ∈ variablesOf rule.conditions[index.1] →
      merged name = owns index name := by
    intro index name inCondition
    have occurs : ∃ index : Fin rule.conditions.length, name ∈ variablesOf rule.conditions[index.1] := ⟨index, inCondition⟩
    simp only [merged, dif_pos occurs]
    have inChosen := occurs.choose_spec
    generalize occurs.choose = chosen at inChosen
    by_cases inEffect : name ∈ variablesOf rule.effect
    · rw [agree chosen name inEffect, agree index name inEffect]
    · -- Only one condition has the variable.
      have pairwise := List.pairwise_iff_getElem.mp keepsShared
      rcases Nat.lt_trichotomy chosen.1 index.1 with less | same | greater
      · exact absurd (pairwise _ _ chosen.2 index.2 less name inChosen inCondition) inEffect
      · rw [Fin.ext same]
      · exact absurd (pairwise _ _ index.2 chosen.2 greater name inCondition inChosen) inEffect
  refine ⟨merged, ?_, Atom.ground_congr fun name occurs => (onEffect name (mem_variablesOf.mpr occurs)).symm⟩
  apply List.ext_getElem (by simpa using sameLength.symm)
  intro index inPremises inConditions
  rw [List.length_map] at inConditions
  rw [List.getElem_map]
  refine (areInstances ⟨index, inConditions⟩).trans ?_
  exact Atom.ground_congr fun name occurs => (onCondition ⟨index, inConditions⟩ name (mem_variablesOf.mpr occurs)).symm

end Numbering

/-! ## Conversion -/

section Conversion

variable [DecidableEq Pred] [DecidableEq Var] [DecidableEq Obj]

theorem mem_variableArgs_of_position {atom : BuildAtom Pred Var Obj}
    (occurs : index ∈ positionsOf atom) : .position index ∈ variableArgs atom := by
  rw [variableArgs, List.mem_filter]
  exact ⟨mem_positionsOf.mp occurs, rfl⟩

/-- When as many variables occur as the conditions have together, no variable occurs in two of them. -/
theorem ProductRule.independent_of_validate {rule : ProductRule Pred Var Obj} (valid : rule.validate = true) :
    ProductRule.Independent rule.conditions := by
  simp only [validate, Bool.and_eq_true, decide_eq_true_eq] at valid
  have allDistinct : (rule.conditions.map fun condition => (variableArgs condition).dedup).flatten.Nodup := by
    have sameLength := valid.2
    rw [← List.length_flatten] at sameLength
    rw [← List.dedup_eq_self]
    exact (List.dedup_sublist _).eq_of_length sameLength
  rw [List.nodup_flatten, List.pairwise_map] at allDistinct
  refine allDistinct.2.imp fun {first second} disjoint index inFirst inSecond => ?_
  exact disjoint (List.mem_dedup.mpr (mem_variableArgs_of_position inFirst))
    (List.mem_dedup.mpr (mem_variableArgs_of_position inSecond))

/-- What a rule is made of, and that it starts without recorded atoms. -/
structure Converted (effect : BuildAtom Pred Var Obj) (conditions : List (BuildAtom Pred Var Obj))
    (rule : BuildRule Pred Var Obj) : Prop where
  shape : rule.shape = (effect, conditions)
  separate : rule.Separate
  fresh : rule.Records (conditions.map fun _ => [])

theorem converted_of_ofType? {effect : BuildAtom Pred Var Obj}
    {conditions : List (BuildAtom Pred Var Obj)} {type : RuleType} {rule : BuildRule Pred Var Obj}
    (isRule : BuildRule.ofType? effect conditions type = some rule) : Converted effect conditions rule := by
  cases type with
  | project =>
    rcases conditions with _ | ⟨condition, _ | ⟨_, _⟩⟩
    · cases isRule
    · cases isRule
      exact ⟨rfl, trivial, trivial⟩
    · cases isRule
  | product =>
    simp only [BuildRule.ofType?, Option.ite_none_right_eq_some, Option.some.injEq] at isRule
    obtain ⟨valid, rfl⟩ := isRule
    refine ⟨rfl, ProductRule.independent_of_validate valid, rfl, ?_⟩
    rw [List.countP_map, ProductRule.ofConditions]
    exact (List.countP_eq_length.mpr fun _ _ => rfl).symm
  | join =>
    rcases conditions with _ | ⟨left, _ | ⟨right, _ | ⟨_, _⟩⟩⟩
    · cases isRule
    · cases isRule
    · simp only [BuildRule.ofType?, Option.ite_none_right_eq_some, Option.some.injEq] at isRule
      obtain ⟨_, rfl⟩ := isRule
      refine ⟨rfl, trivial, [], [], rfl, ?_⟩
      intro key
      simp [JoinRule.ofConditions]
    · cases isRule

/-- The numbered forms of the rules. -/
def numberedShapes (rules : List (TypedRule Pred Var Obj)) : List (Shape Pred Var Obj) :=
  rules.map fun typed => variablesToNumbers typed.rule.effect typed.rule.conditions

theorem forall₂_of_mapM {α β : Type*} {f : α → Option β} {list : List α} {results : List β}
    (isResult : list.mapM f = some results) : List.Forall₂ (fun element result => f element = some result) list results := by
  induction list generalizing results with
  | nil =>
    cases isResult
    exact .nil
  | cons element list inductionHypothesis =>
    simp only [List.mapM_cons, Option.bind_eq_bind, Option.bind_eq_some_iff, Option.pure_def, Option.some.injEq] at isResult
    obtain ⟨result, isFirst, rest, isRest, rfl⟩ := isResult
    exact .cons isFirst (inductionHypothesis isRest)

theorem convertRules_spec {rules : List (TypedRule Pred Var Obj)}
    {buildRules : List (BuildRule Pred Var Obj)} (converts : convertRules rules = some buildRules) :
    List.Forall₂ (fun shape rule => Converted shape.1 shape.2 rule) (numberedShapes rules) buildRules := by
  have each := forall₂_of_mapM converts
  rw [numberedShapes, List.forall₂_map_left_iff]
  exact each.imp fun typed rule isRule => converted_of_ofType? isRule

theorem shapes_of_converted {shapes : List (Shape Pred Var Obj)} {rules : List (BuildRule Pred Var Obj)}
    (converted : List.Forall₂ (fun shape rule => Converted shape.1 shape.2 rule) shapes rules) :
    rules.map BuildRule.shape = shapes := by
  induction converted with
  | nil => rfl
  | cons isConverted _ inductionHypothesis =>
    rw [List.map_cons, inductionHypothesis, isConverted.shape]

/-! ## The model of a program in normal form -/

/-- Rules in normal form, over predicates with arities. -/
structure NormalProgram (arity : Pred → ℕ) (facts : List (Atom Pred Obj))
    (rules : List (TypedRule Pred Var Obj)) : Prop where
  normal : ∀ typed ∈ rules, NormalRule typed.rule
  factsSized : ∀ fact ∈ facts, fact.args.length = arity fact.predicate
  effectsSized : ∀ typed ∈ rules, typed.rule.effect.args.length = arity typed.rule.effect.predicate
  conditionsSized : ∀ typed ∈ rules, ∀ condition ∈ typed.rule.conditions,
    condition.args.length = arity condition.predicate

variable {arity : Pred → ℕ} {facts : List (Atom Pred Obj)}
  {rules : List (TypedRule Pred Var Obj)}

theorem NormalProgram.shapesSized (program : NormalProgram arity facts rules) :
    ShapesSized arity (numberedShapes rules) := by
  constructor
  · intro shape isShape
    obtain ⟨typed, isRule, rfl⟩ := List.mem_map.mp isShape
    simpa [Sized, variablesToNumbers] using program.effectsSized typed isRule
  · intro shape isShape condition isCondition
    obtain ⟨typed, isRule, rfl⟩ := List.mem_map.mp isShape
    obtain ⟨original, isOriginal, rfl⟩ := List.mem_map.mp isCondition
    simpa [Sized] using program.conditionsSized typed isRule original isOriginal
  · intro shape isShape
    obtain ⟨typed, isRule, rfl⟩ := List.mem_map.mp isShape
    simpa [variablesToNumbers] using (program.normal typed isRule).nonempty

theorem NormalProgram.wellNumbered (program : NormalProgram arity facts rules) :
    ∀ shape ∈ numberedShapes rules, WellNumbered shape.1 shape.2 := by
  intro shape isShape
  obtain ⟨typed, isRule, rfl⟩ := List.mem_map.mp isShape
  exact (program.normal typed isRule).wellNumbered

theorem ready_of_converted {shapes : List (Shape Pred Var Obj)} {buildRules : List (BuildRule Pred Var Obj)}
    (converted : List.Forall₂ (fun shape rule => Converted shape.1 shape.2 rule) shapes buildRules)
    (wellNumbered : ∀ shape ∈ shapes, WellNumbered shape.1 shape.2) :
    Recorded buildRules fun _ _ => [] := by
  have atIndex : ∀ (ruleIndex : ℕ) rule, buildRules[ruleIndex]? = some rule →
      ∃ shape ∈ shapes, Converted shape.1 shape.2 rule := by
    intro ruleIndex rule isRule
    obtain ⟨inRange, rfl⟩ := List.getElem?_eq_some_iff.mp isRule
    have ⟨sameLength, slots⟩ := List.forall₂_iff_get.mp converted
    have inShapes : ruleIndex < shapes.length := by omega
    exact ⟨shapes[ruleIndex], List.getElem_mem inShapes, slots ruleIndex inShapes inRange⟩
  constructor
  · intro rule isRule
    obtain ⟨ruleIndex, isRule⟩ := List.mem_iff_getElem?.mp isRule
    obtain ⟨shape, isShape, isConverted⟩ := atIndex ruleIndex rule isRule
    have numbered := wellNumbered shape isShape
    rw [show shape = (rule.effect, rule.conditions) from isConverted.shape.symm] at numbered
    exact ⟨numbered, isConverted.separate⟩
  · intro ruleIndex rule isRule
    obtain ⟨shape, _, isConverted⟩ := atIndex ruleIndex rule isRule
    have fresh := isConverted.fresh
    rw [show shape = (rule.effect, rule.conditions) from isConverted.shape.symm] at fresh
    have sameLists : Seen.ofRule (fun _ _ => []) ruleIndex rule = rule.conditions.map fun _ => [] := by
      simp [Seen.ofRule, List.map_const']
    rwa [sameLists]
  · intro _ _ _ _ _ _ atom isSeen
    cases isSeen

/-- With enough fuel the computation returns the facts and, each once, the other atoms that follow from them by
instances of the numbered rules. -/
theorem computeModel_takesConsequences (str : Atom Pred Obj → String) (program : NormalProgram arity facts rules)
    (converts : (convertRules rules).isSome = true) :
    ∃ bound, ∀ fuel ≥ bound, ∃ derived,
      computeModel str fuel facts rules = some ((sortFactAtoms str facts).map factAtom ++ derived) ∧ derived.Nodup ∧
        (∀ atom ∈ derived, atom ∉ facts.map factAtom) ∧
          ∀ atom, atom ∈ facts.map factAtom ++ derived ↔
            Follows {fact | fact ∈ facts.map factAtom} (InfersAny (numberedShapes rules)) atom := by
  obtain ⟨buildRules, converts⟩ := Option.isSome_iff_exists.mp converts
  have converted := convertRules_spec converts
  have sameShapes := shapes_of_converted converted
  have isSorted : ∀ atom : BuildAtom Pred Var Obj, atom ∈ (sortFactAtoms str facts).map factAtom ↔ atom ∈ facts.map factAtom := by
    intro atom
    simp [sortFactAtoms]
  have sameGiven : {fact | fact ∈ (sortFactAtoms str facts).map factAtom} =
      {fact : BuildAtom Pred Var Obj | fact ∈ facts.map factAtom} := Set.ext isSorted
  have factsSized : ∀ fact : BuildAtom Pred Var Obj, fact ∈ (sortFactAtoms str facts).map factAtom →
      Sized arity fact := by
    intro fact isFact
    obtain ⟨original, isOriginal, rfl⟩ := List.mem_map.mp ((isSorted fact).mp isFact)
    simpa [Sized, factAtom] using program.factsSized original isOriginal
  have computing : Computing arity ((sortFactAtoms str facts).map factAtom) (numberedShapes rules)
      ⟨buildRules, .ofAtoms ((sortFactAtoms str facts).map factAtom)⟩ := by
    refine ⟨⟨fun _ _ => [], ready_of_converted converted program.wellNumbered, sameShapes, ?_⟩,
      Queue.consistent_ofAtoms _, Nat.zero_le _, ?_, [], by simp [Queue.ofAtoms], List.nodup_nil, by simp⟩
    · intro _ _ _ _ _ _ _ atom
      simp [Queue.ofAtoms]
    · apply Saturating.start
      · intro fact
        simp [Queue.ofAtoms]
      · rintro conclusion ⟨shape, isShape, infers⟩
        exact program.shapesSized.nonempty shape isShape (List.eq_nil_of_length_eq_zero infers.sameLength)
  refine ⟨loopBound ((sortFactAtoms str facts).map factAtom) (numberedShapes rules), fun fuel enough => ?_⟩
  obtain ⟨derived, isModel, nodup, noFacts, follows⟩ :=
    computing.modelLoop sameShapes factsSized program.shapesSized program.wellNumbered
      (show _ ≤ 0 + fuel by rwa [Nat.zero_add])
  refine ⟨derived, ?_, nodup, fun atom member isFact => noFacts atom member ((isSorted atom).mpr isFact), ?_⟩
  · simp [computeModel, converts, isModel]
  · intro atom
    rw [← sameGiven, ← follows atom, List.mem_append, List.mem_append, isSorted]

end Conversion

end CutPlan.Translate
