import CutPlan.Translate.SimplifiedStates

/-! # Steps of the simplified task

The tables of the simplified task, and how its axioms and operators act on corresponding states.
-/

namespace CutPlan.Translate

open CutPlan.Lib CutPlan.Sas VarValueRenaming

namespace SasTask

variable {task : SasTask}

/-! ## Tables -/

theorem Valid.newVar_lt_newVarCount (valid : task.Valid) {var : ℕ}
    (isVar : var < task.ranges.length) (varies : task.Varies var) :
    task.newVar var < task.numbering.newVarCount := by
  rw [numbering, buildRenaming_newVarCount]
  exact countP_take_lt_countP (valid.buildDtgs_getElem? isVar) varies

theorem Valid.exists_newVar (valid : task.Valid) {newVar : ℕ}
    (lt : newVar < task.numbering.newVarCount) :
    ∃ var < task.ranges.length, task.Varies var ∧ task.newVar var = newVar := by
  rw [numbering, buildRenaming_newVarCount] at lt
  obtain ⟨var, dtg, isDtg, varies, count⟩ := exists_of_lt_countP lt
  have isVar : var < task.ranges.length :=
    valid.buildDtgs_length ▸ (List.getElem?_eq_some_iff.mp isDtg).1
  rw [valid.buildDtgs_getElem? isVar, Option.some.injEq] at isDtg
  exact ⟨var, isVar, by rwa [Varies, isDtg], count⟩

/-- A table with one entry for each varying variable is filled. -/
theorem Valid.fillTable_ok (valid : task.Valid) {α : Type} {entries : List (ℕ × α)} {entryOf : ℕ → α}
    (members : ∀ entry, entry ∈ entries ↔ ∃ var < task.ranges.length, task.Varies var ∧
      entry = (task.newVar var, entryOf var)) :
    ∃ table, task.numbering.fillTable entries = .ok table ∧
      ∀ var < task.ranges.length, task.Varies var →
        table[task.newVar var]? = some (entryOf var) := by
  have functional : ∀ first ∈ entries, ∀ second ∈ entries, first.1 = second.1 → first = second := by
    intro first isFirst second isSecond same
    obtain ⟨one, isOne, oneVaries, rfl⟩ := (members first).mp isFirst
    obtain ⟨other, isOther, otherVaries, rfl⟩ := (members second).mp isSecond
    rw [(valid.newVar_inj isOne isOther oneVaries otherVaries).mp same]
  have within : ∀ entry ∈ entries, entry.1 < task.numbering.newVarCount := by
    intro entry member
    obtain ⟨var, isVar, varies, rfl⟩ := (members entry).mp member
    exact valid.newVar_lt_newVarCount isVar varies
  have placed (var : ℕ) (isVar : var < task.ranges.length) (varies : task.Varies var) :
      (placeAll task.numbering.newVarCount entries)[task.newVar var]? = some (some (entryOf var)) :=
    placeAll_getElem? functional within ((members _).mpr ⟨var, isVar, varies, rfl⟩)
  have full : ∀ entry ∈ placeAll task.numbering.newVarCount entries, entry ≠ none := by
    intro entry member
    obtain ⟨newVar, isIndex, rfl⟩ := List.getElem_of_mem member
    obtain ⟨var, isVar, varies, rfl⟩ := valid.exists_newVar (placeAll_length _ entries ▸ isIndex)
    have isPlaced := placed var isVar varies
    rw [List.getElem?_eq_getElem isIndex, Option.some.injEq] at isPlaced
    rw [isPlaced]
    simp
  obtain ⟨table, collects, same⟩ := mapM_id_of_full full
  refine ⟨table, by rw [fillTable, collects], fun var isVar varies => ?_⟩
  have isPlaced := placed var isVar varies
  rw [same, List.getElem?_map, Option.map_eq_some_iff] at isPlaced
  obtain ⟨entry, isEntry, sameEntry⟩ := isPlaced
  rw [isEntry, Option.some.inj sameEntry]

theorem Valid.applyToVariables_ok (valid : task.Valid) :
    ∃ layers, task.numbering.applyToVariables task.axiomLayers = .ok layers ∧
      ∀ var < task.ranges.length, task.Varies var →
        layers[task.newVar var]? = some (task.axiomLayers.getD var 0) := by
  refine valid.fillTable_ok fun entry => ?_
  simp only [List.mem_filterMap]
  constructor
  · rintro ⟨⟨newVar, layer⟩, member, isEntry⟩
    obtain ⟨var, isPair⟩ := List.getElem?_of_mem member
    rw [List.getElem?_zip_eq_some] at isPair
    have isVar : var < task.ranges.length :=
      valid.layers ▸ (List.getElem?_eq_some_iff.mp isPair.2).1
    have named := valid.newVarNos_getD isVar
    rw [List.getD_eq_getElem?_getD, isPair.1] at named
    simp only [Option.getD_some] at named
    subst named
    refine ⟨var, isVar, ?_⟩
    by_cases varies : isVarying (task.dtg var) = true
    · simp only [varies, if_true, Option.map_some, Option.some.injEq] at isEntry
      refine ⟨varies, ?_⟩
      rw [← isEntry, List.getD_eq_getElem?_getD, isPair.2, Option.getD_some]
    · simp [varies] at isEntry
  · rintro ⟨var, isVar, varies, rfl⟩
    have isLayer : var < task.axiomLayers.length := valid.layers ▸ isVar
    have isNamed : task.numbering.newVarNos[var]? = some (some (task.newVar var)) := by
      rw [numbering, buildRenaming_newVarNos, numberKept_getElem?, valid.buildDtgs_getElem? isVar,
        Option.map_some, if_pos (show isVarying (task.dtg var) = true from varies), Nat.zero_add,
        newVar]
    refine ⟨(some (task.newVar var), task.axiomLayers[var]),
      List.mem_of_getElem? (List.getElem?_zip_eq_some.mpr
        ⟨isNamed, List.getElem?_eq_getElem isLayer⟩), ?_⟩
    simp [isLayer]

theorem Valid.mem_initFacts (valid : task.Valid) {fact : Condition} :
    fact ∈ task.init.mapIdx (fun var value => ({ var := var, val := value } : Condition)) ↔
      fact.var < task.ranges.length ∧ fact.val = task.init.getD fact.var 0 := by
  rw [List.mem_mapIdx]
  constructor
  · rintro ⟨var, isVar, rfl⟩
    exact ⟨valid.inits ▸ isVar, by simp [isVar]⟩
  · rintro ⟨isVar, isInit⟩
    have inside : fact.var < task.init.length := valid.inits ▸ isVar
    refine ⟨fact.var, inside, ?_⟩
    rw [List.getD_eq_getElem?_getD, List.getElem?_eq_getElem inside, Option.getD_some] at isInit
    rw [← isInit]

theorem Valid.applyToInit_ok (valid : task.Valid) :
    ∃ init, task.numbering.applyToInit task.init = .ok init ∧
      ∀ var < task.ranges.length, task.Varies var →
        init[task.newVar var]? = some (task.newValue var (task.init.getD var 0) : ℤ) := by
  have validFacts : ∀ fact ∈ task.init.mapIdx
      (fun var value => ({ var := var, val := value } : Condition)), task.ValidFact fact := by
    intro fact member
    obtain ⟨isVar, isInit⟩ := valid.mem_initFacts.mp member
    have isValid := valid.init_fact isVar
    rwa [← isInit] at isValid
  unfold applyToInit
  cases converts : task.numbering.convertPairs
      (task.init.mapIdx fun var value => ({ var := var, val := value } : Condition)) with
  | error stop =>
    obtain ⟨_, fact, member, unreached⟩ := valid.convertPairs_error validFacts converts
    obtain ⟨isVar, isInit⟩ := valid.mem_initFacts.mp member
    exact absurd (isInit ▸ valid.reaches_init isVar) unreached
  | ok pairs =>
    obtain ⟨_, isPair⟩ := valid.convertPairs_ok validFacts converts
    refine valid.fillTable_ok fun entry => ?_
    simp only [List.mem_map]
    constructor
    · rintro ⟨pair, member, rfl⟩
      obtain ⟨fact, isFact, varies, rfl⟩ := (isPair pair).mp member
      obtain ⟨isVar, isInit⟩ := valid.mem_initFacts.mp isFact
      exact ⟨fact.var, isVar, varies, by rw [isInit]⟩
    · rintro ⟨var, isVar, varies, rfl⟩
      exact ⟨_, (isPair _).mpr ⟨{ var := var, val := task.init.getD var 0 },
        valid.mem_initFacts.mpr ⟨isVar, rfl⟩, varies, rfl⟩, rfl⟩

/-! ## The simplified task -/

/-- What a run of the simplification that returns a task has computed. -/
structure Simplified (task simplified : SasTask) : Prop where
  layers : ∀ var < task.ranges.length, task.Varies var →
    simplified.axiomLayers[task.newVar var]? = some (task.axiomLayers.getD var 0)
  init : ∀ var < task.ranges.length, task.Varies var →
    simplified.init[task.newVar var]? = some (task.newValue var (task.init.getD var 0) : ℤ)
  goal : task.numbering.convertPairs task.goal = .ok simplified.goal
  globalConstraint : task.numbering.translateGlobalConstraint task.globalConstraint =
    .ok simplified.globalConstraint
  operators : task.numbering.applyToOperators task.operators = .ok simplified.operators
  axioms : task.numbering.applyToAxioms task.axioms = .ok simplified.axioms
  compAxioms : task.numbering.applyToCompAxioms task.compAxioms = .ok simplified.compAxioms
  numericTypes : simplified.numericTypes = task.numericTypes
  numericInit : simplified.numericInit = task.numericInit
  numericAxioms : simplified.numericAxioms = task.numericAxioms

variable {simplified : SasTask} {values newValues : ℕ → ℤ}

theorem Simplified.layer (simple : Simplified task simplified) (valid : task.Valid) {var : ℕ}
    (isVar : var < task.ranges.length) (varies : task.Varies var) :
    simplified.layer (task.newVar var) = task.layer var := by
  have isLayer : var < task.axiomLayers.length := valid.layers ▸ isVar
  rw [SasTask.layer, simple.layers var isVar varies, SasTask.layer, List.getD_eq_getElem?_getD,
    List.getElem?_eq_getElem isLayer, Option.getD_some]

theorem Simplified.defaultValue (simple : Simplified task simplified) {var : ℕ}
    (isVar : var < task.ranges.length) (varies : task.Varies var) :
    simplified.meaning.defaultValue (task.newVar var) =
      task.newValue var (task.meaning.defaultValue var) := by
  show simplified.init.getD (task.newVar var) 0 = task.newValue var (task.init.getD var 0)
  rw [List.getD_eq_getElem?_getD, simple.init var isVar varies, Option.getD_some]

/-! ## Axioms -/

theorem Valid.applyToAxiom_error (valid : task.Valid) {rule : SasAxiom}
    (isRule : rule ∈ task.axioms) {stop : Stop}
    (stops : task.numbering.applyToAxiom rule = .error stop) :
    stop = .impossible ∧ (∃ fact ∈ rule.condition, ¬ task.Reaches fact.var fact.val) ∨
      stop = .doesNothing ∧ ¬ task.Varies rule.effect.var := by
  unfold applyToAxiom at stops
  cases converts : task.numbering.convertPairs rule.condition with
  | error conditionStop =>
    rw [converts] at stops
    cases stops
    exact .inl (valid.convertPairs_error (valid.axiomConditions rule isRule) converts)
  | ok condition =>
    have translated := valid.translated (valid.axiomEffects rule isRule)
    rw [converts] at stops
    cases result : task.numbering.translatePair rule.effect with
    | mk newVar newValue =>
      simp only [result, bind, Except.bind] at translated stops
      cases translated with
      | unreached _ unreached => exact absurd (valid.reaches_rule isRule) unreached
      | only reached constant => exact .inr ⟨(Except.error.inj stops).symm, constant⟩
      | kept reached varies => cases stops

theorem Valid.applyToAxiom_ok (valid : task.Valid) {rule newRule : SasAxiom}
    (isRule : rule ∈ task.axioms) (translates : task.numbering.applyToAxiom rule = .ok newRule) :
    task.numbering.convertPairs rule.condition = .ok newRule.condition ∧
      task.Varies rule.effect.var ∧ newRule.effect =
        { var := task.newVar rule.effect.var
          val := task.newValue rule.effect.var rule.effect.val } := by
  unfold applyToAxiom at translates
  cases converts : task.numbering.convertPairs rule.condition with
  | error stop =>
    rw [converts] at translates
    cases translates
  | ok condition =>
    have translated := valid.translated (valid.axiomEffects rule isRule)
    rw [converts] at translates
    cases result : task.numbering.translatePair rule.effect with
    | mk newVar newValue =>
      simp only [result, bind, Except.bind] at translated translates
      cases translated with
      | unreached _ unreached => cases newVar <;> cases translates
      | only reached constant => cases translates
      | kept reached varies =>
        cases translates
        exact ⟨rfl, varies, rfl⟩

/-- The translation of the axioms fails no assertion. -/
theorem Valid.applyToAxioms_ok (valid : task.Valid) {rules : List SasAxiom}
    (areRules : ∀ rule ∈ rules, rule ∈ task.axioms) :
    ∃ newRules, task.numbering.applyToAxioms rules = .ok newRules := by
  induction rules with
  | nil => exact ⟨[], rfl⟩
  | cons rule rules inductionHypothesis =>
    rw [List.forall_mem_cons] at areRules
    obtain ⟨newRules, translates⟩ := inductionHypothesis areRules.2
    rw [applyToAxioms]
    cases first : task.numbering.applyToAxiom rule with
    | error stop =>
      obtain ⟨rfl, _⟩ | ⟨rfl, _⟩ := valid.applyToAxiom_error areRules.1 first
      · exact ⟨newRules, translates⟩
      · exact ⟨newRules, translates⟩
    | ok newRule =>
      rw [translates]
      exact ⟨newRule :: newRules, rfl⟩

theorem ruleFires_eq_true {rule : SasAxiom} {layer var : ℕ} :
    task.meaning.ruleFires layer values var rule.meaning = true ↔
      rule.effect.var = var ∧ task.layer var = some layer ∧
        Condition.allHold rule.condition values = true := by
  simp only [Preprocess.Task.ruleFires, Bool.and_eq_true, decide_eq_true_eq, and_assoc]
  exact Iff.rfl

/-- The first rule that fires for a variable has the same value in both tasks. -/
theorem Simplified.find_rule (simple : Simplified task simplified) (valid : task.Valid)
    (matched : task.Matches values newValues) (layer : ℕ) {var : ℕ}
    (isVar : var < task.ranges.length) (varies : task.Varies var) {rules newRules : List SasAxiom}
    (areRules : ∀ rule ∈ rules, rule ∈ task.axioms)
    (translates : task.numbering.applyToAxioms rules = .ok newRules) :
    ((newRules.map SasAxiom.meaning).find?
        (simplified.meaning.ruleFires layer newValues (task.newVar var))).map
          Preprocess.AxiomRelational.effectVal =
      ((rules.map SasAxiom.meaning).find? (task.meaning.ruleFires layer values var)).map
        fun rule => (task.newValue var rule.effectVal : ℤ) := by
  induction rules generalizing newRules with
  | nil =>
    cases translates
    rfl
  | cons rule rules inductionHypothesis =>
    rw [List.forall_mem_cons] at areRules
    rw [applyToAxioms] at translates
    rw [List.map_cons, List.find?_cons]
    cases first : task.numbering.applyToAxiom rule with
    | error stop =>
      have silent : task.meaning.ruleFires layer values var rule.meaning = false := by
        rw [← Bool.not_eq_true, ruleFires_eq_true]
        rintro ⟨rfl, _, holds⟩
        obtain ⟨_, fact, member, unreached⟩ | ⟨_, constant⟩ :=
          valid.applyToAxiom_error areRules.1 first
        · rw [Condition.allHold, List.all_eq_true] at holds
          have value := of_decide_eq_true (holds fact member)
          have isFactVar :=
            (valid.axiomConditions rule areRules.1 fact member).mem_domain.1
          exact unreached (value ▸ matched.reached fact.var isFactVar)
        · exact constant varies
      rw [silent]
      refine inductionHypothesis areRules.2 ?_
      rw [first] at translates
      obtain ⟨rfl, _⟩ | ⟨rfl, _⟩ := valid.applyToAxiom_error areRules.1 first
      · exact translates
      · exact translates
    | ok newRule =>
      rw [first] at translates
      obtain ⟨others, othersTranslate⟩ := valid.applyToAxioms_ok areRules.2
      rw [othersTranslate] at translates
      cases translates
      obtain ⟨converts, effectVaries, effect⟩ := valid.applyToAxiom_ok areRules.1 first
      have isEffect := (valid.axiomEffects rule areRules.1).mem_domain.1
      have sameFiring : simplified.meaning.ruleFires layer newValues (task.newVar var)
          newRule.meaning = task.meaning.ruleFires layer values var rule.meaning := by
        rw [Bool.eq_iff_iff, ruleFires_eq_true, ruleFires_eq_true, effect,
          simple.layer valid isVar varies,
          valid.allHold_converted matched (valid.axiomConditions rule areRules.1) converts]
        exact and_congr_left' (valid.newVar_inj isEffect isVar effectVaries varies)
      rw [List.map_cons, List.find?_cons, sameFiring]
      cases fires : task.meaning.ruleFires layer values var rule.meaning with
      | false => exact inductionHypothesis areRules.2 othersTranslate
      | true =>
        obtain ⟨rfl, _⟩ := ruleFires_eq_true.mp fires
        simp [SasAxiom.meaning, effect]

theorem applyRules_eq (layer : ℕ) (values : ℕ → ℤ) (var : ℕ) :
    task.meaning.applyRules layer values var =
      match ((task.axioms.map SasAxiom.meaning).find?
          (task.meaning.ruleFires layer values var)).map Preprocess.AxiomRelational.effectVal with
      | some effectVal =>
        if values var = task.meaning.defaultValue var then effectVal else values var
      | none => values var := by
  have axioms : task.meaning.axiomsRel = task.axioms.map SasAxiom.meaning := rfl
  rw [Preprocess.Task.applyRules, axioms]
  cases (task.axioms.map SasAxiom.meaning).find? (task.meaning.ruleFires layer values var) <;> rfl

theorem Valid.applyRules_reached (valid : task.Valid)
    (reached : ∀ var < task.ranges.length, task.Reaches var (values var)) (layer : ℕ) :
    ∀ var < task.ranges.length, task.Reaches var (task.meaning.applyRules layer values var) := by
  intro var isVar
  obtain same | ⟨_, rule, isRule, isEffect, result⟩ := task.meaning.applyRules_cases layer values var
  · exact same ▸ reached var isVar
  · obtain ⟨sasRule, isSasRule, rfl⟩ := List.mem_map.mp isRule
    have reachedEffect := valid.reaches_rule isSasRule
    have sameVar : sasRule.effect.var = var := isEffect
    rw [result, ← sameVar]
    exact reachedEffect

theorem Simplified.applyRules (simple : Simplified task simplified) (valid : task.Valid)
    (matched : task.Matches values newValues) (layer : ℕ) :
    task.Matches (task.meaning.applyRules layer values)
      (simplified.meaning.applyRules layer newValues) where
  reached := valid.applyRules_reached matched.reached layer
  renamed := by
    intro var isVar varies
    have found := simple.find_rule valid matched layer isVar varies (fun _ isRule => isRule)
      simple.axioms
    rw [applyRules_eq, applyRules_eq, found]
    cases (task.axioms.map SasAxiom.meaning).find? (task.meaning.ruleFires layer values var) with
    | none => exact matched.renamed var isVar varies
    | some rule =>
      have sameDefault : newValues (task.newVar var) =
          simplified.meaning.defaultValue (task.newVar var) ↔
            values var = task.meaning.defaultValue var := by
        rw [simple.defaultValue isVar varies, matched.renamed var isVar varies, Int.natCast_inj]
        exact valid.newValue_inj isVar (matched.reached var isVar) (valid.reaches_init isVar)
      simp only [Option.map_some, sameDefault]
      split
      · rfl
      · exact matched.renamed var isVar varies

theorem Simplified.evaluateRules (simple : Simplified task simplified) (valid : task.Valid)
    (matched : task.Matches values newValues) :
    task.Matches (task.meaning.evaluateRules values)
      (simplified.meaning.evaluateRules newValues) := by
  -- both tasks are given the same numbers of rounds and layers
  rw [Preprocess.Task.evaluateRules_eq
      (Nat.le_max_left task.meaning.axiomsRel.length simplified.meaning.axiomsRel.length)
      (Nat.le_max_left task.meaning.layerCount simplified.meaning.layerCount),
    Preprocess.Task.evaluateRules_eq
      (Nat.le_max_right task.meaning.axiomsRel.length simplified.meaning.axiomsRel.length)
      (Nat.le_max_right task.meaning.layerCount simplified.meaning.layerCount)]
  generalize max task.meaning.axiomsRel.length simplified.meaning.axiomsRel.length = rounds
  generalize List.range (max task.meaning.layerCount simplified.meaning.layerCount) = layers
  induction layers generalizing values newValues with
  | nil => exact matched
  | cons layer layers inductionHypothesis =>
    rw [List.foldl_cons, List.foldl_cons]
    apply inductionHypothesis
    clear inductionHypothesis
    induction rounds with
    | zero => exact matched
    | succ rounds inductionHypothesis =>
      rw [Function.iterate_succ_apply', Function.iterate_succ_apply']
      exact simple.applyRules valid inductionHypothesis layer

theorem Valid.comparison_varies (valid : task.Valid) {rule : SasCompareAxiom}
    (isRule : rule ∈ task.compAxioms) : task.Varies rule.effect := by
  obtain ⟨isTrue, isFalse⟩ := valid.reaches_comparison isRule
  exact varies_of_ne isTrue isFalse (by omega)

/-- The values that comparisons write keep their numbers. -/
theorem Valid.comparison_newValue (valid : task.Valid) {rule : SasCompareAxiom}
    (isRule : rule ∈ task.compAxioms) :
    task.newValue rule.effect 0 = 0 ∧ task.newValue rule.effect 1 = 1 := by
  obtain ⟨isTrue, isFalse⟩ := valid.reaches_comparison isRule
  have isVar := valid.comparisons rule isRule
  have grows := valid.newValue_lt isVar (by omega : (0 : ℤ) < 1) isTrue
  have small : task.newValue rule.effect 1 ≤ 1 := by
    calc task.newValue rule.effect 1
        ≤ ((domain (task.dtg rule.effect).size).take 1).length := List.countP_le_length
      _ ≤ 1 := List.length_take_le 1 _
  omega

theorem Valid.newVarNos_varying (valid : task.Valid) {var : ℕ} (isVar : var < task.ranges.length)
    (varies : task.Varies var) :
    task.numbering.newVarNos.getD var none = some (task.newVar var) := by
  rw [valid.newVarNos_getD isVar, if_pos (show isVarying (task.dtg var) = true from varies)]

theorem Valid.applyToCompAxioms_ok (valid : task.Valid) {rules : List SasCompareAxiom}
    (areRules : ∀ rule ∈ rules, rule ∈ task.compAxioms) :
    task.numbering.applyToCompAxioms rules =
      .ok (rules.map fun rule => { rule with effect := task.newVar rule.effect }) := by
  induction rules with
  | nil => rfl
  | cons rule rules inductionHypothesis =>
    rw [List.forall_mem_cons] at areRules
    rw [applyToCompAxioms, valid.newVarNos_varying (valid.comparisons rule areRules.1)
      (valid.comparison_varies areRules.1), inductionHypothesis areRules.2]
    rfl

theorem Valid.comparisons_foldl (valid : task.Valid) (matched : task.Matches values newValues)
    (holds : SasCompareAxiom → Bool) {rules : List SasCompareAxiom}
    (areRules : ∀ rule ∈ rules, rule ∈ task.compAxioms) :
    task.Matches
      (rules.foldl (fun values rule =>
        Function.update values rule.effect (if holds rule then 0 else 1)) values)
      (rules.foldl (fun values rule =>
        Function.update values (task.newVar rule.effect) (if holds rule then 0 else 1)) newValues) := by
  induction rules generalizing values newValues with
  | nil => exact matched
  | cons rule rules inductionHypothesis =>
    rw [List.forall_mem_cons] at areRules
    rw [List.foldl_cons, List.foldl_cons]
    apply inductionHypothesis _ areRules.2
    have isVar := valid.comparisons rule areRules.1
    have varies := valid.comparison_varies areRules.1
    obtain ⟨isTrue, isFalse⟩ := valid.reaches_comparison areRules.1
    obtain ⟨newTrue, newFalse⟩ := valid.comparison_newValue areRules.1
    cases holds rule with
    | true =>
      have updated := valid.match_update matched isVar isTrue varies
      rwa [newTrue] at updated
    | false =>
      have updated := valid.match_update matched isVar isFalse varies
      rwa [newFalse] at updated

theorem Simplified.comparisons (simple : Simplified task simplified) (valid : task.Valid)
    (matched : task.Matches values newValues) (numericValues : ℕ → ℚ) :
    task.Matches
      (task.meaning.axiomsFuncComp.foldl (Preprocess.Task.compare numericValues) values)
      (simplified.meaning.axiomsFuncComp.foldl (Preprocess.Task.compare numericValues) newValues) := by
  have rules := valid.applyToCompAxioms_ok fun _ isRule => isRule
  rw [simple.compAxioms, Except.ok.injEq] at rules
  simp only [meaning, rules, List.map_map, List.foldl_map, Function.comp_def]
  exact valid.comparisons_foldl matched
    (fun rule => rule.comp.eval (numericValues rule.left) (numericValues rule.right))
    fun _ isRule => isRule

/-! ## States -/

structure Corresponds (task : SasTask) (state newState : Preprocess.State) : Prop where
  values : task.Matches state.values newState.values
  numericValues : newState.numericValues = state.numericValues

variable {state newState : Preprocess.State}

theorem Simplified.resetDerived (simple : Simplified task simplified) (valid : task.Valid)
    (corresponds : task.Corresponds state newState) :
    task.Corresponds (task.meaning.resetDerived state) (simplified.meaning.resetDerived newState) where
  values := {
    reached := by
      intro var isVar
      show task.Reaches var (if (task.layer var).isSome = true then _ else _)
      split
      · exact valid.reaches_init isVar
      · exact corresponds.values.reached var isVar
    renamed := by
      intro var isVar varies
      show (if (simplified.layer (task.newVar var)).isSome = true then _ else _) =
        (task.newValue var (if (task.layer var).isSome = true then _ else _) : ℤ)
      rw [simple.layer valid isVar varies]
      split
      · exact simple.defaultValue isVar varies
      · exact corresponds.values.renamed var isVar varies }
  numericValues := by
    funext var
    show (if simplified.numericTypes.getD var .unknown = .derived then (0 : ℚ)
      else newState.numericValues var) = _
    rw [simple.numericTypes, corresponds.numericValues]
    rfl

theorem Simplified.evaluateAxioms (simple : Simplified task simplified) (valid : task.Valid)
    (corresponds : task.Corresponds state newState) :
    task.Corresponds (task.meaning.evaluateAxioms state)
      (simplified.meaning.evaluateAxioms newState) := by
  have reset := simple.resetDerived valid corresponds
  have computed : (simplified.meaning.evaluateAxioms newState).numericValues =
      (task.meaning.evaluateAxioms state).numericValues := by
    rw [Preprocess.Task.evaluateAxioms_numericValues, Preprocess.Task.evaluateAxioms_numericValues,
      reset.numericValues]
    simp only [meaning, simple.numericAxioms]
  refine ⟨?_, computed⟩
  rw [Preprocess.Task.evaluateAxioms_values, Preprocess.Task.evaluateAxioms_values, computed]
  exact simple.evaluateRules valid (simple.comparisons valid reset.values _)

theorem Simplified.initialState (simple : Simplified task simplified) (valid : task.Valid) :
    task.Corresponds task.meaning.initialState simplified.meaning.initialState where
  values := {
    reached := fun var isVar => valid.reaches_init isVar
    renamed := fun var isVar varies => simple.defaultValue isVar varies }
  numericValues := by
    simp only [meaning, simple.numericInit]

end SasTask

end CutPlan.Translate
