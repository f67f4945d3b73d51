import CutPlan.Translate.Simplify

/-! # The renaming of variables and values

What the renaming does with a fact of a valid task, and which facts the domain transition graphs reach.
-/

namespace CutPlan.Translate

open CutPlan.Lib CutPlan.Sas

/-! ## Building the renaming -/

namespace VarValueRenaming

def isVarying (dtg : DomainTransitionGraph) : Bool :=
  dtg.reachable.length ≠ 1

def newValuesOf (dtg : DomainTransitionGraph) : List NewValue :=
  if isVarying dtg then numberedValues dtg else removedValues dtg

theorem foldl_registerVariable (dtgs : List DomainTransitionGraph) (mapping : VarValueRenaming) :
    (dtgs.foldl registerVariable mapping).newVarNos =
        mapping.newVarNos ++ numberKept isVarying mapping.newVarCount dtgs ∧
      (dtgs.foldl registerVariable mapping).newValues =
        mapping.newValues ++ dtgs.map newValuesOf ∧
      (dtgs.foldl registerVariable mapping).newVarCount =
        mapping.newVarCount + dtgs.countP isVarying := by
  induction dtgs generalizing mapping with
  | nil => simp [numberKept]
  | cons dtg dtgs inductionHypothesis =>
    obtain ⟨varNos, values, count⟩ := inductionHypothesis (mapping.registerVariable dtg)
    rw [List.foldl_cons, varNos, values, count]
    by_cases single : dtg.reachable.length = 1
    · simp [registerVariable, single, numberKept, newValuesOf, isVarying]
    · simp only [registerVariable, single, numberKept, newValuesOf, isVarying, if_false, ne_eq,
        not_false_eq_true, decide_true, if_true, List.append_assoc, List.singleton_append,
        List.map_cons, List.countP_cons, true_and]
      omega

theorem buildRenaming_newVarNos (dtgs : List DomainTransitionGraph) :
    (buildRenaming dtgs).newVarNos = numberKept isVarying 0 dtgs :=
  (foldl_registerVariable dtgs .empty).1

theorem buildRenaming_newValues (dtgs : List DomainTransitionGraph) :
    (buildRenaming dtgs).newValues = dtgs.map newValuesOf :=
  (foldl_registerVariable dtgs .empty).2.1

theorem buildRenaming_newVarCount (dtgs : List DomainTransitionGraph) :
    (buildRenaming dtgs).newVarCount = dtgs.countP isVarying := by
  rw [buildRenaming, (foldl_registerVariable dtgs .empty).2.2, empty, Nat.zero_add]

end VarValueRenaming

open VarValueRenaming

theorem mem_domain {size : ℕ} {value : ℤ} : value ∈ domain size ↔ 0 ≤ value ∧ value < size := by
  simp only [domain, List.mem_map, List.mem_range]
  constructor
  · rintro ⟨number, small, rfl⟩
    exact ⟨Int.natCast_nonneg number, Int.ofNat_lt.mpr small⟩
  · rintro ⟨nonneg, small⟩
    exact ⟨value.toNat, by omega, Int.toNat_of_nonneg nonneg⟩

theorem domain_getElem? {size : ℕ} {value : ℤ} (member : value ∈ domain size) :
    (domain size)[value.toNat]? = some value := by
  obtain ⟨nonneg, small⟩ := mem_domain.mp member
  have inside : value.toNat < size := by omega
  simp [domain, inside, Int.toNat_of_nonneg nonneg]

/-! ## The graphs of a task -/

namespace SasTask

variable {task : SasTask}

def dtg (task : SasTask) (var : ℕ) : DomainTransitionGraph where
  init := task.init.getD var 0
  size := task.ranges.getD var 0
  arcs := task.arcsOf var

/-- The graph of the variable reaches the value. -/
def Reaches (task : SasTask) (var : ℕ) (value : ℤ) : Prop :=
  value ∈ (task.dtg var).reachable

/-- The variable keeps more than one value. -/
def Varies (task : SasTask) (var : ℕ) : Prop :=
  isVarying (task.dtg var) = true

instance (task : SasTask) (var : ℕ) (value : ℤ) : Decidable (task.Reaches var value) :=
  inferInstanceAs (Decidable (value ∈ (task.dtg var).reachable))

instance (task : SasTask) (var : ℕ) : Decidable (task.Varies var) :=
  inferInstanceAs (Decidable (isVarying (task.dtg var) = true))

def numbering (task : SasTask) : VarValueRenaming :=
  buildRenaming task.buildDtgs

theorem Valid.zip_filter (valid : task.Valid) :
    (task.init.zip task.ranges).filter (fun entry => 0 < entry.2) = task.init.zip task.ranges := by
  rw [List.filter_eq_self]
  intro entry member
  have large := valid.sizes entry.2 (List.of_mem_zip member).2
  simp only [decide_eq_true_eq]
  omega

theorem Valid.buildDtgs_getElem? (valid : task.Valid) {var : ℕ} (isVar : var < task.ranges.length) :
    task.buildDtgs[var]? = some (task.dtg var) := by
  have isInit : var < task.init.length := valid.inits ▸ isVar
  have entry : (task.init.zip task.ranges)[var]? = some (task.init[var], task.ranges[var]) :=
    List.getElem?_zip_eq_some.mpr
      ⟨List.getElem?_eq_getElem isInit, List.getElem?_eq_getElem isVar⟩
  rw [buildDtgs, valid.zip_filter, List.getElem?_mapIdx, entry]
  simp [dtg, isVar, isInit]

theorem Valid.buildDtgs_length (valid : task.Valid) :
    task.buildDtgs.length = task.ranges.length := by
  rw [buildDtgs, valid.zip_filter, List.length_mapIdx, List.length_zip, valid.inits, Nat.min_self]

theorem ValidFact.mem_domain {fact : Condition} (valid : task.ValidFact fact) :
    fact.var < task.ranges.length ∧ fact.val ∈ domain (task.dtg fact.var).size := by
  obtain ⟨size, isSize, nonneg, small⟩ := valid
  have isVar := (List.getElem?_eq_some_iff.mp isSize).1
  refine ⟨isVar, Translate.mem_domain.mpr ⟨nonneg, ?_⟩⟩
  show fact.val < (task.ranges.getD fact.var 0 : ℕ)
  rw [List.getD_eq_getElem?_getD, isSize]
  exact small

/-! ### Reached values -/

theorem mem_arcsOf {var : ℕ} {pre post : ℤ} :
    (pre, post) ∈ task.arcsOf var ↔
      ({ var := var, pre := pre, post := post } : DtgArc) ∈ task.arcs := by
  simp only [arcsOf, List.mem_map, List.mem_filter, decide_eq_true_eq, Prod.mk.injEq]
  constructor
  · rintro ⟨⟨_, _, _⟩, ⟨member, rfl⟩, rfl, rfl⟩
    exact member
  · intro member
    exact ⟨_, ⟨member, rfl⟩, rfl, rfl⟩

theorem mem_addArc {arc : DtgArc} {var : ℕ} {preSpec post : ℤ}
    (member : arc ∈ task.addArc var preSpec post) :
    arc.var = var ∧ arc.post = post := by
  unfold addArc at member
  split at member
  · obtain ⟨pre, _, rfl⟩ := List.mem_map.mp member
    exact ⟨rfl, rfl⟩
  · rw [List.mem_singleton] at member
    subst member
    exact ⟨rfl, rfl⟩

/-- What an arc of the task leads to is a value that something in the task writes. -/
theorem mem_arcs_cases {arc : DtgArc} (member : arc ∈ task.arcs) :
    (∃ op ∈ task.operators, ∃ effect ∈ op.prePost, arc.var = effect.var ∧ arc.post = effect.post) ∨
      (∃ rule ∈ task.axioms, arc.var = rule.effect.var ∧ arc.post = rule.effect.val) ∨
      ∃ rule ∈ task.compAxioms, arc.var = rule.effect ∧ (arc.post = 0 ∨ arc.post = 1) := by
  simp only [arcs, List.mem_append, List.mem_flatMap] at member
  obtain (⟨op, isOp, fromOp⟩ | ⟨rule, isRule, fromRule⟩) | ⟨rule, isRule, fromRule⟩ := member
  · left
    simp only [operatorArcs, List.mem_flatMap] at fromOp
    obtain ⟨effect, isEffect, fromEffect⟩ := fromOp
    split at fromEffect
    · exact ⟨op, isOp, effect, isEffect, mem_addArc fromEffect⟩
    · cases fromEffect
  · exact .inr (.inl ⟨rule, isRule, mem_addArc fromRule⟩)
  · refine .inr (.inr ⟨rule, isRule, ?_⟩)
    obtain isTrue | isFalse := fromRule
    · exact ⟨(mem_addArc isTrue).1, .inl (mem_addArc isTrue).2⟩
    · exact ⟨(mem_addArc isFalse).1, .inr (mem_addArc isFalse).2⟩

theorem Valid.comparison_fact (valid : task.Valid) {rule : SasCompareAxiom}
    (isRule : rule ∈ task.compAxioms) {value : ℤ} (isValue : value = 0 ∨ value = 1) :
    task.ValidFact { var := rule.effect, val := value } := by
  have isVar := valid.comparisons rule isRule
  have large := valid.sizes _ (List.getElem_mem isVar)
  exact ⟨_, List.getElem?_eq_getElem isVar, by show 0 ≤ value; omega, by show value < _; omega⟩

theorem Valid.arc_within (valid : task.Valid) {var : ℕ} {pre post : ℤ}
    (isArc : (pre, post) ∈ task.arcsOf var) : post ∈ domain (task.dtg var).size := by
  obtain ⟨op, isOp, effect, isEffect, sameVar, samePost⟩ | ⟨rule, isRule, sameVar, samePost⟩ |
    ⟨rule, isRule, sameVar, isValue⟩ := mem_arcs_cases (mem_arcsOf.mp isArc)
  · subst sameVar samePost
    exact ((valid.operators op isOp).post effect isEffect).mem_domain.2
  · subst sameVar samePost
    exact (valid.axiomEffects rule isRule).mem_domain.2
  · subst sameVar
    exact (valid.comparison_fact isRule isValue).mem_domain.2

theorem Valid.init_fact (valid : task.Valid) {var : ℕ} (isVar : var < task.ranges.length) :
    task.ValidFact { var := var, val := task.init.getD var 0 } := by
  have isInit : var < task.init.length := valid.inits ▸ isVar
  rw [List.getD_eq_getElem?_getD, List.getElem?_eq_getElem isInit]
  exact valid.initFacts var _ (List.getElem?_eq_getElem isInit)

theorem Valid.explored (valid : task.Valid) {var : ℕ} (isVar : var < task.ranges.length) :
    Explored (task.dtg var).successors (domain (task.dtg var).size).toFinset []
        (task.dtg var).reachable ∧
      task.Reaches var (task.init.getD var 0) := by
  have size : (domain (task.dtg var).size).toFinset.card ≤ (task.dtg var).size := by
    have distinct : (domain (task.dtg var).size).Nodup :=
      List.nodup_range.map fun _ _ => Int.ofNat.inj
    rw [List.toFinset_card_of_nodup distinct, domain, List.length_map, List.length_range]
  have edges : ∀ value ∈ (domain (task.dtg var).size).toFinset,
      ∀ next ∈ (task.dtg var).successors value, next ∈ (domain (task.dtg var).size).toFinset := by
    intro value _ next isNext
    simp only [DomainTransitionGraph.successors, List.mem_map, List.mem_filter] at isNext
    obtain ⟨arc, ⟨isArc, _⟩, rfl⟩ := isNext
    exact List.mem_toFinset.mpr (valid.arc_within isArc)
  have start : ∀ value ∈ [(task.dtg var).init],
      value ∈ (domain (task.dtg var).size).toFinset := by
    intro value member
    rw [List.mem_singleton.mp member]
    exact List.mem_toFinset.mpr (valid.init_fact isVar).mem_domain.2
  obtain ⟨explored, found⟩ := explore_closed edges (List.nodup_singleton _) start size
  exact ⟨explored, found _ List.mem_cons_self⟩

theorem Valid.reaches_init (valid : task.Valid) {var : ℕ} (isVar : var < task.ranges.length) :
    task.Reaches var (task.init.getD var 0) :=
  (valid.explored isVar).2

theorem Valid.reaches_within (valid : task.Valid) {var : ℕ} (isVar : var < task.ranges.length)
    {value : ℤ} (reached : task.Reaches var value) : value ∈ domain (task.dtg var).size :=
  List.mem_toFinset.mp ((valid.explored isVar).1.within value reached)

theorem Valid.reaches_arc (valid : task.Valid) {var : ℕ} (isVar : var < task.ranges.length)
    {pre post : ℤ} (reached : task.Reaches var pre)
    (isArc : ({ var := var, pre := pre, post := post } : DtgArc) ∈ task.arcs) :
    task.Reaches var post := by
  refine (valid.explored isVar).1.closed pre reached (by simp) post ?_
  simp only [DomainTransitionGraph.successors, List.mem_map, List.mem_filter, decide_eq_true_eq]
  exact ⟨(pre, post), ⟨mem_arcsOf.mpr isArc, rfl⟩, rfl⟩

/-- Arcs from every other value reach `post` from wherever the variable is. -/
theorem Valid.reaches_unconditional (valid : task.Valid) {var : ℕ}
    (isVar : var < task.ranges.length) {value post : ℤ} (reached : task.Reaches var value)
    (subset : ∀ arc ∈ task.addArc var (-1) post, arc ∈ task.arcs) : task.Reaches var post := by
  by_cases same : value = post
  · exact same ▸ reached
  · refine valid.reaches_arc isVar reached (subset _ ?_)
    simp only [addArc, if_true, List.mem_map, List.mem_filter, decide_eq_true_eq]
    exact ⟨value, ⟨valid.reaches_within isVar reached, same⟩, rfl⟩

theorem Valid.reaches_rule (valid : task.Valid) {rule : SasAxiom} (isRule : rule ∈ task.axioms) :
    task.Reaches rule.effect.var rule.effect.val := by
  have isVar := (valid.axiomEffects rule isRule).mem_domain.1
  refine valid.reaches_unconditional isVar (valid.reaches_init isVar) fun arc member => ?_
  exact List.mem_append_left _ (List.mem_append_right _ (List.mem_flatMap.mpr ⟨rule, isRule, member⟩))

theorem Valid.reaches_comparison (valid : task.Valid) {rule : SasCompareAxiom}
    (isRule : rule ∈ task.compAxioms) : task.Reaches rule.effect 0 ∧ task.Reaches rule.effect 1 := by
  have isVar := valid.comparisons rule isRule
  have subset : ∀ arc ∈ task.addArc rule.effect (-1) 0 ++ task.addArc rule.effect (-1) 1,
      arc ∈ task.arcs := fun arc member =>
    List.mem_append_right _ (List.mem_flatMap.mpr ⟨rule, isRule, member⟩)
  constructor
  · exact valid.reaches_unconditional isVar (valid.reaches_init isVar) fun arc member =>
      subset arc (List.mem_append_left _ member)
  · exact valid.reaches_unconditional isVar (valid.reaches_init isVar) fun arc member =>
      subset arc (List.mem_append_right _ member)

/-! ### New numbers -/

def newVar (task : SasTask) (var : ℕ) : ℕ :=
  (task.buildDtgs.take var).countP isVarying

def newValue (task : SasTask) (var : ℕ) (value : ℤ) : ℕ :=
  ((domain (task.dtg var).size).take value.toNat).countP (· ∈ (task.dtg var).reachable)

theorem Valid.newVarNos_getD (valid : task.Valid) {var : ℕ} (isVar : var < task.ranges.length) :
    task.numbering.newVarNos.getD var none =
      if isVarying (task.dtg var) then some (task.newVar var) else none := by
  rw [numbering, buildRenaming_newVarNos, List.getD_eq_getElem?_getD, numberKept_getElem?,
    valid.buildDtgs_getElem? isVar, Option.map_some, Option.getD_some, Nat.zero_add, newVar]

theorem Valid.newValues_getD (valid : task.Valid) {var : ℕ} (isVar : var < task.ranges.length) :
    task.numbering.newValues.getD var [] = newValuesOf (task.dtg var) := by
  rw [numbering, buildRenaming_newValues, List.getD_eq_getElem?_getD, List.getElem?_map,
    valid.buildDtgs_getElem? isVar, Option.map_some, Option.getD_some]

theorem varies_of_ne {var : ℕ} {first second : ℤ} (firstReached : task.Reaches var first)
    (secondReached : task.Reaches var second) (different : first ≠ second) : task.Varies var := by
  simp only [Varies, isVarying, ne_eq, decide_not, Bool.not_eq_true', decide_eq_false_iff_not]
  intro single
  obtain ⟨value, only⟩ := List.length_eq_one_iff.mp single
  rw [Reaches, only, List.mem_singleton] at firstReached secondReached
  exact different (firstReached.trans secondReached.symm)

/-- A variable that does not vary has its initial value. -/
theorem Valid.eq_init_of_not_varies (valid : task.Valid) {var : ℕ}
    (isVar : var < task.ranges.length) (constant : ¬ task.Varies var) {value : ℤ}
    (reached : task.Reaches var value) : value = task.init.getD var 0 := by
  by_contra different
  exact constant (varies_of_ne reached (valid.reaches_init isVar) different)

/-- What the renaming does with a fact. -/
inductive Translated (task : SasTask) (fact : Condition) : Option ℕ × NewValue → Prop
  | unreached (newVar : Option ℕ) :
      ¬ task.Reaches fact.var fact.val → Translated task fact (newVar, .alwaysFalse)
  | only : task.Reaches fact.var fact.val → ¬ task.Varies fact.var →
      Translated task fact (none, .alwaysTrue)
  | kept : task.Reaches fact.var fact.val → task.Varies fact.var →
      Translated task fact (some (task.newVar fact.var), .value (task.newValue fact.var fact.val))

theorem Valid.translated (valid : task.Valid) {fact : Condition} (validFact : task.ValidFact fact) :
    task.Translated fact (task.numbering.translatePair fact) := by
  obtain ⟨isVar, isValue⟩ := validFact.mem_domain
  have found := domain_getElem? isValue
  rw [translatePair, valid.newVarNos_getD isVar, valid.newValues_getD isVar,
    List.getD_eq_getElem?_getD, newValuesOf]
  by_cases varies : isVarying (task.dtg fact.var) = true
  · simp only [varies, if_true, numberedValues, List.getElem?_map, numberKept_getElem?, found,
      Option.map_some]
    by_cases reached : task.Reaches fact.var fact.val
    · have isReached : fact.val ∈ (task.dtg fact.var).reachable := reached
      simp only [isReached, decide_true, if_true, Nat.zero_add]
      exact .kept reached varies
    · have notReached : fact.val ∉ (task.dtg fact.var).reachable := reached
      simp only [notReached, decide_false]
      exact .unreached _ reached
  · have constant : isVarying (task.dtg fact.var) = false := by simpa using varies
    simp only [constant, if_false, removedValues, List.getElem?_map, found, Option.map_some,
      Bool.false_eq_true, Option.getD_some]
    by_cases isInit : fact.val = task.init.getD fact.var 0
    · have reached : task.Reaches fact.var fact.val := isInit ▸ valid.reaches_init isVar
      rw [if_pos (show fact.val = (task.dtg fact.var).init from isInit)]
      exact .only reached varies
    · rw [if_neg (show ¬ fact.val = (task.dtg fact.var).init from isInit)]
      exact .unreached _ fun reached => isInit (valid.eq_init_of_not_varies isVar varies reached)

theorem Valid.newVar_lt (valid : task.Valid) {first second : ℕ} (lt : first < second)
    (isVar : first < task.ranges.length) (varies : task.Varies first) :
    task.newVar first < task.newVar second :=
  countP_take_lt lt (valid.buildDtgs_getElem? isVar) varies

theorem Valid.newVar_inj (valid : task.Valid) {first second : ℕ}
    (isFirst : first < task.ranges.length) (isSecond : second < task.ranges.length)
    (firstVaries : task.Varies first) (secondVaries : task.Varies second) :
    task.newVar first = task.newVar second ↔ first = second := by
  constructor
  · intro same
    by_contra different
    cases Nat.lt_or_gt_of_ne different with
    | inl lt => exact absurd (valid.newVar_lt lt isFirst firstVaries) (by omega)
    | inr gt => exact absurd (valid.newVar_lt gt isSecond secondVaries) (by omega)
  · rintro rfl
    rfl

theorem Valid.newValue_lt (valid : task.Valid) {var : ℕ} (isVar : var < task.ranges.length)
    {first second : ℤ} (lt : first < second) (firstReached : task.Reaches var first) :
    task.newValue var first < task.newValue var second := by
  have isFirst := valid.reaches_within isVar firstReached
  have nonneg := (mem_domain.mp isFirst).1
  exact countP_take_lt (by omega) (domain_getElem? isFirst) (decide_eq_true firstReached)

theorem Valid.newValue_inj (valid : task.Valid) {var : ℕ} (isVar : var < task.ranges.length)
    {first second : ℤ} (firstReached : task.Reaches var first)
    (secondReached : task.Reaches var second) :
    task.newValue var first = task.newValue var second ↔ first = second := by
  constructor
  · intro same
    by_contra different
    obtain lt | gt := Int.lt_or_gt_of_ne different
    · exact absurd (valid.newValue_lt isVar lt firstReached) (by omega)
    · exact absurd (valid.newValue_lt isVar gt secondReached) (by omega)
  · rintro rfl
    rfl

end SasTask

end CutPlan.Translate
