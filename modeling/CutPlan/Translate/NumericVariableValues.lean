import CutPlan.Translate.NumericTaskReading
import Mathlib.Data.List.Sort

/-! # Values of the numeric variables

The variable of a derived function has, after the axioms have been evaluated in the order of their layers,
the value that the symbol of the function says.
-/

namespace CutPlan.Translate

open CutPlan.Lib CutPlan.Preprocess CutPlan.Sas

/-! ## Positions -/

theorem getElem?_of_idxOf? {α : Type} [DecidableEq α] {items : List α} {item : α} {index : ℕ}
    (found : items.idxOf? item = some index) : items[index]? = some item := by
  obtain ⟨inside, isItem, _⟩ := List.idxOf?_eq_some_iff.mp found
  rw [List.getElem?_eq_getElem inside, isItem]

theorem exists_idxOf? {α : Type} [DecidableEq α] {items : List α} {item : α} (isMember : item ∈ items) :
    ∃ index, items.idxOf? item = some index :=
  Option.isSome_iff_exists.mp (List.isSome_idxOf?.mpr isMember)

theorem exists_forall₂_of_forall_mem {α β : Type} {relation : α → β → Prop} {items : List α}
    (each : ∀ item ∈ items, ∃ result, relation item result) :
    ∃ results, List.Forall₂ relation items results := by
  induction items with
  | nil => exact ⟨[], .nil⟩
  | cons item items inductionHypothesis =>
    rw [List.forall_mem_cons] at each
    obtain ⟨result, related⟩ := each.1
    obtain ⟨results, relatedAll⟩ := inductionHypothesis each.2
    exact ⟨result :: results, .cons related relatedAll⟩

theorem exists_of_forall₂_left {α β : Type} {relation : α → β → Prop} {items : List α} {results : List β}
    (related : List.Forall₂ relation items results) {item : α} (isItem : item ∈ items) :
    ∃ result ∈ results, relation item result := by
  induction related with
  | nil => cases isItem
  | cons first rest inductionHypothesis =>
    obtain rfl | isLater := List.mem_cons.mp isItem
    · exact ⟨_, List.mem_cons_self .., first⟩
    · obtain ⟨result, isResult, isRelated⟩ := inductionHypothesis isLater
      exact ⟨result, List.mem_cons_of_mem _ isResult, isRelated⟩

namespace NumericFacts

variable {facts : NumericFacts} {folded : List InstantiatedNumericAxiom} {constantAxioms : List Pne}
  {axiomMap : AxiomMap} {order : IterationOrder} {fluents : List Pne}

/-! ## Representatives -/

theorem Merges.representative_cases
    (merges : facts.Merges folded constantAxioms (folded.map InstantiatedNumericAxiom.effect) axiomMap)
    (pne : Pne) :
    pne ∉ axiomMap.map Prod.fst ∧ axiomMap.representative pne = pne ∨
      facts.Merged folded constantAxioms (folded.map InstantiatedNumericAxiom.effect) axiomMap pne
        (axiomMap.representative pne) := by
  unfold AxiomMap.representative
  cases found : axiomMap.find? (·.1 = pne) with
  | none =>
    refine .inl ⟨?_, rfl⟩
    intro isMapped
    obtain ⟨entry, isEntry, isEffect⟩ := List.mem_map.mp isMapped
    have absent := List.find?_eq_none.mp found entry isEntry
    simp [isEffect] at absent
  | some entry =>
    obtain rfl : entry.1 = pne := by simpa using List.find?_some found
    exact .inr (merges entry (List.mem_of_find?_eq_some found))

theorem Merges.representative_unmapped
    (merges : facts.Merges folded constantAxioms (folded.map InstantiatedNumericAxiom.effect) axiomMap)
    (pne : Pne) : axiomMap.representative pne ∉ axiomMap.map Prod.fst := by
  obtain ⟨unmapped, same⟩ | merged := merges.representative_cases pne
  · rwa [same]
  · exact merged.unmapped

theorem Merges.representative_layer
    (merges : facts.Merges folded constantAxioms (folded.map InstantiatedNumericAxiom.effect) axiomMap)
    (pne : Pne) : axiomLayer folded constantAxioms (axiomMap.representative pne) =
      axiomLayer folded constantAxioms pne := by
  obtain ⟨_, same⟩ | merged := merges.representative_cases pne
  · rw [same]
  · exact merged.sameLayer.symm

theorem Merges.representative_constant
    (merges : facts.Merges folded constantAxioms (folded.map InstantiatedNumericAxiom.effect) axiomMap)
    (pne : Pne) : axiomMap.representative pne ∈ constantAxioms ↔ pne ∈ constantAxioms := by
  obtain ⟨_, same⟩ | merged := merges.representative_cases pne
  · rw [same]
  · exact ⟨fun isConstant => absurd isConstant merged.representativeVaries,
      fun isConstant => absurd isConstant merged.varies⟩

theorem Merges.representative_effect
    (merges : facts.Merges folded constantAxioms (folded.map InstantiatedNumericAxiom.effect) axiomMap)
    (pne : Pne) : axiomMap.representative pne ∈ folded.map InstantiatedNumericAxiom.effect ↔
      pne ∈ folded.map InstantiatedNumericAxiom.effect := by
  obtain ⟨_, same⟩ | merged := merges.representative_cases pne
  · rw [same]
  · exact ⟨fun _ => merged.isProcessed, fun _ => merged.representsProcessed⟩

/-! ## Variables -/

theorem FoldedAxioms.settled_cases (axioms : facts.FoldedAxioms folded constantAxioms) {pne : Pne}
    (settled : facts.Settled folded pne) :
    (∃ name, pne.symbol = .function name ∧ facts.fluentFunctions name pne.args = true ∧
        pne ∉ folded.map InstantiatedNumericAxiom.effect) ∨
      pne ∈ folded.map InstantiatedNumericAxiom.effect := by
  obtain ⟨symbol, args⟩ := pne
  cases symbol with
  | function name =>
    refine .inl ⟨name, rfl, settled, ?_⟩
    intro isEffect
    obtain ⟨numericAxiom, isAxiom, sameEffect⟩ := List.mem_map.mp isEffect
    have derived := axioms.derived numericAxiom isAxiom
    rw [sameEffect] at derived
    exact derived
  | constant _ | inverse _ | operation _ _ =>
    obtain ⟨numericAxiom, isAxiom, isEffect⟩ := settled
    exact .inr (List.mem_map.mpr ⟨numericAxiom, isAxiom, isEffect⟩)

theorem mem_keptAxioms {numericAxiom : InstantiatedNumericAxiom} :
    numericAxiom ∈ keptAxioms folded axiomMap ↔
      numericAxiom ∈ folded ∧ numericAxiom.effect ∉ axiomMap.map Prod.fst := by
  simp [keptAxioms]

theorem FoldedAxioms.columns_nodup (axioms : facts.FoldedAxioms folded constantAxioms)
    (fluentsNodup : fluents.Nodup) : (numericColumns folded axiomMap fluents).Nodup := by
  rw [numericColumns, List.nodup_append]
  refine ⟨axioms.nodup.sublist (List.filter_sublist.map _), fluentsNodup.filter _, ?_⟩
  intro effect isEffect fluent isFluent same
  obtain ⟨numericAxiom, isKept, rfl⟩ := List.mem_map.mp isEffect
  subst same
  have notEffect : numericAxiom.effect ∉ folded.map InstantiatedNumericAxiom.effect := by
    simpa using (List.mem_filter.mp isFluent).2
  exact notEffect (List.mem_map_of_mem (mem_keptAxioms.mp isKept).1)

/-- Everything settled has a variable. -/
theorem FoldedAxioms.dictionary_eq (axioms : facts.FoldedAxioms folded constantAxioms)
    (merges : facts.Merges folded constantAxioms (folded.map InstantiatedNumericAxiom.effect) axiomMap)
    (listed : ∀ name args, facts.fluentFunctions name args = true → .mk (.function name) args ∈ fluents)
    {pne : Pne} (settled : facts.Settled folded pne) :
    ∃ var, numericDictionary (numericColumns folded axiomMap fluents) axiomMap pne = some var ∧
      (numericColumns folded axiomMap fluents)[var]? = some (axiomMap.representative pne) := by
  have isColumn : axiomMap.representative pne ∈ numericColumns folded axiomMap fluents := by
    rw [numericColumns, List.mem_append]
    obtain ⟨name, isFunction, isFluent, notEffect⟩ | isEffect := axioms.settled_cases settled
    · have same : axiomMap.representative pne = pne := by
        obtain ⟨_, same⟩ | merged := merges.representative_cases pne
        · exact same
        · exact absurd merged.isProcessed notEffect
      rw [same, List.mem_filter]
      refine .inr ⟨?_, by simpa using notEffect⟩
      have member := listed name pne.args isFluent
      rwa [← isFunction, Pne.mk_symbol_args] at member
    · obtain ⟨numericAxiom, isAxiom, sameEffect⟩ :=
        List.mem_map.mp ((merges.representative_effect pne).mpr isEffect)
      rw [← sameEffect]
      refine .inl (List.mem_map_of_mem (mem_keptAxioms.mpr ⟨isAxiom, ?_⟩))
      rw [sameEffect]
      exact merges.representative_unmapped pne
  obtain ⟨var, found⟩ := exists_idxOf? isColumn
  exact ⟨var, found, getElem?_of_idxOf? found⟩

/-! ## Layers of variables -/

theorem layerKeys_ascending :
    ((layerKeys order folded constantAxioms).filter (· ≠ -1)).Pairwise (· < ·) := by
  have naturals : ∀ count : ℕ, ((List.range count).map Int.ofNat).Pairwise (· < ·) := by
    intro count
    rw [List.pairwise_map]
    exact List.pairwise_lt_range.imp fun less => by simpa using less
  unfold layerKeys
  dsimp only
  split
  · simpa using (naturals _).filter _
  · simpa using (naturals _).filter _

theorem layeredEffects_ascending :
    (layeredEffects order folded constantAxioms axiomMap).Pairwise fun first second =>
      axiomLayer folded constantAxioms first ≤ axiomLayer folded constantAxioms second := by
  rw [layeredEffects, List.pairwise_flatMap]
  have inLayer : ∀ layer, ∀ effect ∈ ((order.byName (layerToAxioms order folded constantAxioms layer)).map
      InstantiatedNumericAxiom.effect).filter (· ∉ axiomMap.map Prod.fst),
      axiomLayer folded constantAxioms effect = layer := by
    intro layer effect isEffect
    obtain ⟨numericAxiom, isAxiom, rfl⟩ := List.mem_map.mp (List.mem_filter.mp isEffect).1
    rw [(order.byName_perm _).mem_iff, mem_layerToAxioms] at isAxiom
    exact isAxiom.2
  constructor
  · intro layer _
    apply List.pairwise_of_forall_mem_list
    intro first isFirst second isSecond
    rw [inLayer layer first isFirst, inLayer layer second isSecond]
  · apply layerKeys_ascending.imp
    intro first second less effect isEffect other isOther
    rw [inLayer first effect isEffect, inLayer second other isOther]
    exact less.le

theorem mem_layeredEffects (order : IterationOrder) (axioms : facts.FoldedAxioms folded constantAxioms)
    {numericAxiom : InstantiatedNumericAxiom} (isAxiom : numericAxiom ∈ folded)
    (notConstant : numericAxiom.effect ∉ constantAxioms)
    (unmapped : numericAxiom.effect ∉ axiomMap.map Prod.fst) :
    numericAxiom.effect ∈ layeredEffects order folded constantAxioms axiomMap := by
  have nonneg := axiomLayer_nonneg axioms isAxiom notConstant
  rw [layeredEffects, List.mem_flatMap]
  refine ⟨axiomLayer folded constantAxioms numericAxiom.effect, ?_, ?_⟩
  · rw [List.mem_filter]
    refine ⟨axiomLayer_mem_layerKeys order isAxiom, ?_⟩
    simp only [decide_eq_true_eq]
    omega
  · rw [List.mem_filter]
    refine ⟨List.mem_map_of_mem ?_, by simpa using unmapped⟩
    rw [(order.byName_perm _).mem_iff, mem_layerToAxioms]
    exact ⟨isAxiom, rfl⟩

/-- The layers of the variables respect the layers of the axioms. -/
theorem numericLayer_lt (axioms : facts.FoldedAxioms folded constantAxioms)
    {numericAxiom : InstantiatedNumericAxiom} (isAxiom : numericAxiom ∈ folded)
    (notConstant : numericAxiom.effect ∉ constantAxioms)
    (unmapped : numericAxiom.effect ∉ axiomMap.map Prod.fst) {pne : Pne}
    (lower : axiomLayer folded constantAxioms pne <
      axiomLayer folded constantAxioms numericAxiom.effect) :
    numericLayer (layeredEffects order folded constantAxioms axiomMap) pne <
      numericLayer (layeredEffects order folded constantAxioms axiomMap) numericAxiom.effect := by
  obtain ⟨index, found⟩ := exists_idxOf? (mem_layeredEffects order axioms isAxiom notConstant unmapped)
  rw [numericLayer, numericLayer, found]
  cases isFound : (layeredEffects order folded constantAxioms axiomMap).idxOf? pne with
  | none => dsimp only; omega
  | some earlier =>
    dsimp only
    have isEffect := getElem?_of_idxOf? found
    have isPne := getElem?_of_idxOf? isFound
    rw [Int.ofNat_lt]
    by_contra notLess
    obtain rfl | greater : earlier = index ∨ index < earlier := by omega
    · rw [isPne] at isEffect
      cases isEffect
      omega
    · have ascending := List.pairwise_iff_getElem.mp layeredEffects_ascending index earlier
        (List.getElem?_eq_some_iff.mp isEffect).1 (List.getElem?_eq_some_iff.mp isPne).1 greater
      rw [(List.getElem?_eq_some_iff.mp isEffect).2, (List.getElem?_eq_some_iff.mp isPne).2] at ascending
      omega

/-! ## The axioms that are written -/

/-- The rule that is read for an axiom. -/
def Computes (dictionary : Pne → Option ℕ) (numericAxiom : InstantiatedNumericAxiom)
    (rule : AxiomNumericComputation) : Prop :=
  numericAxiom.op = some rule.fop ∧ dictionary numericAxiom.effect = some rule.effectVar ∧
    ∃ first second, numericAxiom.parts = [.pne first, .pne second] ∧
      dictionary first = some rule.leftVar ∧ dictionary second = some rule.rightVar

theorem Computes.translate_eq {dictionary : Pne → Option ℕ} {numericAxiom : InstantiatedNumericAxiom}
    {rule : AxiomNumericComputation} (computes : Computes dictionary numericAxiom rule) :
    translateNumericAxiom dictionary numericAxiom = binaryAxiom rule := by
  obtain ⟨hasOp, hasEffect, first, second, parts, hasFirst, hasSecond⟩ := computes
  simp [translateNumericAxiom, binaryAxiom, hasOp, hasEffect, parts, hasFirst, hasSecond]

/-- The axioms that are written: those that are neither constant nor represented by others. -/
def writtenAxioms (folded : List InstantiatedNumericAxiom) (constantAxioms : List Pne)
    (axiomMap : AxiomMap) : List InstantiatedNumericAxiom :=
  (keptAxioms folded axiomMap).filter (·.effect ∉ constantAxioms)

theorem mem_writtenAxioms {numericAxiom : InstantiatedNumericAxiom} :
    numericAxiom ∈ writtenAxioms folded constantAxioms axiomMap ↔
      numericAxiom ∈ folded ∧ numericAxiom.effect ∉ axiomMap.map Prod.fst ∧
        numericAxiom.effect ∉ constantAxioms := by
  rw [writtenAxioms, List.mem_filter, mem_keptAxioms]
  simp [and_assoc]

theorem exists_rules (axioms : facts.FoldedAxioms folded constantAxioms)
    (merges : facts.Merges folded constantAxioms (folded.map InstantiatedNumericAxiom.effect) axiomMap)
    (listed : ∀ name args, facts.fluentFunctions name args = true → .mk (.function name) args ∈ fluents) :
    ∃ rules, List.Forall₂
      (Computes (numericDictionary (numericColumns folded axiomMap fluents) axiomMap))
      (writtenAxioms folded constantAxioms axiomMap) rules := by
  apply exists_forall₂_of_forall_mem
  intro numericAxiom isWritten
  obtain ⟨isAxiom, unmapped, notConstant⟩ := mem_writtenAxioms.mp isWritten
  obtain ⟨op, first, second, hasOp, _, operands, parts, _⟩ := axioms.operands isAxiom notConstant
  have closed := axioms.closed numericAxiom isAxiom notConstant
  obtain ⟨left, hasLeft, _⟩ := axioms.dictionary_eq merges listed (closed first (by simp [operands]))
  obtain ⟨right, hasRight, _⟩ := axioms.dictionary_eq merges listed (closed second (by simp [operands]))
  have isSettled : facts.Settled folded numericAxiom.effect := by
    obtain ⟨_, op, first, second, isOperation⟩ := axioms.computed numericAxiom isAxiom notConstant
    unfold Settled
    rw [isOperation]
    exact ⟨numericAxiom, isAxiom, rfl⟩
  obtain ⟨effect, hasEffect, _⟩ := axioms.dictionary_eq merges listed isSettled
  exact ⟨⟨effect, op, left, right⟩, hasOp, hasEffect, _, _, parts, hasLeft, hasRight⟩

theorem map_translate_eq {dictionary : Pne → Option ℕ} {written : List InstantiatedNumericAxiom}
    {rules : List AxiomNumericComputation} (computes : List.Forall₂ (Computes dictionary) written rules) :
    written.map (translateNumericAxiom dictionary) = rules.map binaryAxiom := by
  induction computes with
  | nil => rfl
  | cons first rest inductionHypothesis => simp [first.translate_eq, inductionHypothesis]

/-! ## Evaluation -/

/-- What the preprocessor reads of the variables. -/
def readVariables (order : IterationOrder) (folded : List InstantiatedNumericAxiom)
    (constantAxioms : List Pne) (axiomMap : AxiomMap) (columns : List Pne) : List (NumType × ℤ) :=
  ((columns.map (numericType folded constantAxioms)).map readType).zip
    (columns.map (numericLayer (layeredEffects order folded constantAxioms axiomMap)))

theorem readVariables_getElem? (columns : List Pne) (var : ℕ) :
    (readVariables order folded constantAxioms axiomMap columns)[var]? = columns[var]?.map fun pne =>
      (readType (numericType folded constantAxioms pne),
        numericLayer (layeredEffects order folded constantAxioms axiomMap) pne) := by
  rw [readVariables, List.map_map, List.zip_map', List.getElem?_map]
  rfl

theorem Merges.column_effect
    (merges : facts.Merges folded constantAxioms (folded.map InstantiatedNumericAxiom.effect) axiomMap)
    {pne : Pne} (unmapped : pne ∉ axiomMap.map Prod.fst) : axiomMap.representative pne = pne := by
  obtain ⟨_, same⟩ | merged := merges.representative_cases pne
  · exact same
  · unfold AxiomMap.representative
    cases found : axiomMap.find? (·.1 = pne) with
    | none => rfl
    | some entry =>
      have isEntry := List.mem_of_find?_eq_some found
      have isKey : entry.1 = pne := by simpa using List.find?_some found
      exact absurd (List.mem_map.mpr ⟨entry, isEntry, isKey⟩) unmapped

theorem numericDictionary_column {columns : List Pne} {pne : Pne} {var : ℕ}
    (found : numericDictionary columns axiomMap pne = some var) :
    columns[var]? = some (axiomMap.representative pne) :=
  getElem?_of_idxOf? found

section Rules

variable (axioms : facts.FoldedAxioms folded constantAxioms)
  (merges : facts.Merges folded constantAxioms (folded.map InstantiatedNumericAxiom.effect) axiomMap)
  {columns : List Pne} {rules : List AxiomNumericComputation}
  (computes : List.Forall₂ (Computes (numericDictionary columns axiomMap))
    (writtenAxioms folded constantAxioms axiomMap) rules)

include axioms merges computes

theorem effectVars_nodup : (rules.map AxiomNumericComputation.effectVar).Nodup := by
  have writtenNodup : ((writtenAxioms folded constantAxioms axiomMap).map
      InstantiatedNumericAxiom.effect).Nodup :=
    axioms.nodup.sublist ((List.filter_sublist.trans List.filter_sublist).map _)
  have unmapped : ∀ numericAxiom ∈ writtenAxioms folded constantAxioms axiomMap,
      numericAxiom.effect ∉ axiomMap.map Prod.fst := fun _ isWritten => (mem_writtenAxioms.mp isWritten).2.1
  clear axioms
  generalize writtenAxioms folded constantAxioms axiomMap = written at computes writtenNodup unmapped
  induction computes with
  | nil => simp
  | cons first rest inductionHypothesis =>
    rename_i numericAxiom rule written rules
    rw [List.map_cons, List.nodup_cons] at writtenNodup ⊢
    rw [List.forall_mem_cons] at unmapped
    refine ⟨?_, inductionHypothesis writtenNodup.2 unmapped.2⟩
    intro isEffectVar
    obtain ⟨other, isRule, sameVar⟩ := List.mem_map.mp isEffectVar
    obtain ⟨otherAxiom, isWritten, otherComputes⟩ :
        ∃ otherAxiom ∈ written, Computes (numericDictionary columns axiomMap) otherAxiom other := by
      obtain ⟨found, isFound, related⟩ := exists_of_forall₂_left rest.flip isRule
      exact ⟨found, isFound, related⟩
    have column := numericDictionary_column first.2.1
    have otherColumn := numericDictionary_column otherComputes.2.1
    rw [sameVar, column, merges.column_effect unmapped.1,
      merges.column_effect (unmapped.2 otherAxiom isWritten)] at otherColumn
    exact writtenNodup.1 (List.mem_map.mpr ⟨otherAxiom, isWritten, (Option.some.inj otherColumn).symm⟩)

/-- The operands of a rule have variables of lower layers. -/
theorem rule_layers (order : IterationOrder) {rule : AxiomNumericComputation} (isRule : rule ∈ rules) :
    ∃ numericAxiom ∈ writtenAxioms folded constantAxioms axiomMap,
      Computes (numericDictionary columns axiomMap) numericAxiom rule ∧
      columns[rule.effectVar]? = some numericAxiom.effect ∧
      (∀ var, var = rule.leftVar ∨ var = rule.rightVar → ∃ operand, columns[var]? = some operand ∧
        numericLayer (layeredEffects order folded constantAxioms axiomMap) operand <
          numericLayer (layeredEffects order folded constantAxioms axiomMap) numericAxiom.effect) := by
  obtain ⟨numericAxiom, isWritten, related⟩ := exists_of_forall₂_left computes.flip isRule
  have ruleComputes : Computes (numericDictionary columns axiomMap) numericAxiom rule := related
  obtain ⟨isAxiom, unmapped, notConstant⟩ := mem_writtenAxioms.mp isWritten
  refine ⟨numericAxiom, isWritten, ruleComputes, ?_, ?_⟩
  · rw [numericDictionary_column ruleComputes.2.1, merges.column_effect unmapped]
  · obtain ⟨_, _, first, second, parts, hasFirst, hasSecond⟩ := ruleComputes
    have lower : ∀ pne, NumericPart.pne pne ∈ numericAxiom.parts →
        numericLayer (layeredEffects order folded constantAxioms axiomMap) (axiomMap.representative pne) <
          numericLayer (layeredEffects order folded constantAxioms axiomMap) numericAxiom.effect := by
      intro pne isPart
      apply numericLayer_lt axioms isAxiom notConstant unmapped
      rw [merges.representative_layer]
      exact axiomLayer_operand_lt axioms isAxiom notConstant isPart
    rintro var (rfl | rfl)
    · exact ⟨_, numericDictionary_column hasFirst, lower first (by simp [parts])⟩
    · exact ⟨_, numericDictionary_column hasSecond, lower second (by simp [parts])⟩

/-- In the order of the layers no rule changes what an earlier one has used. -/
theorem sortByLayer_ordered (order : IterationOrder) :
    (sortByLayer (readVariables order folded constantAxioms axiomMap columns) rules).Pairwise
      fun earlier later => later.effectVar ≠ earlier.leftVar ∧
        later.effectVar ≠ earlier.rightVar ∧ later.effectVar ≠ earlier.effectVar := by
  have perm : (sortByLayer (readVariables order folded constantAxioms axiomMap columns) rules).Perm rules :=
    List.mergeSort_perm _ _
  have ascending : (sortByLayer (readVariables order folded constantAxioms axiomMap columns) rules).Pairwise
      fun first second =>
        ((readVariables order folded constantAxioms axiomMap columns)[first.effectVar]?.map Prod.snd).getD (-1)
          ≤ ((readVariables order folded constantAxioms axiomMap columns)[second.effectVar]?.map
              Prod.snd).getD (-1) := by
    have sorted : (sortByLayer (readVariables order folded constantAxioms axiomMap columns) rules).Pairwise
        fun first second => decide
          (((readVariables order folded constantAxioms axiomMap columns)[first.effectVar]?.map
              Prod.snd).getD (-1) ≤
            ((readVariables order folded constantAxioms axiomMap columns)[second.effectVar]?.map
              Prod.snd).getD (-1)) = true := by
      apply List.pairwise_mergeSort
      · intro first second third
        simp only [decide_eq_true_eq]
        omega
      · intro first second
        simp only [Bool.or_eq_true, decide_eq_true_eq]
        omega
    exact sorted.imp fun less => by simpa using less
  have distinct : (sortByLayer (readVariables order folded constantAxioms axiomMap columns) rules).Pairwise
      fun first second => first.effectVar ≠ second.effectVar := by
    rw [← List.pairwise_map]
    exact ((perm.map _).nodup_iff).mpr (effectVars_nodup axioms merges computes)
  apply (ascending.and distinct).imp_of_mem
  intro earlier later isEarlier isLater ⟨less, different⟩
  obtain ⟨first, _, _, firstColumn, lower⟩ :=
    rule_layers axioms merges computes order (perm.mem_iff.mp isEarlier)
  have apart : ∀ var, var = earlier.leftVar ∨ var = earlier.rightVar → later.effectVar ≠ var := by
    intro var isOperand same
    obtain ⟨operand, hasColumn, isLower⟩ := lower var isOperand
    rw [readVariables_getElem?, readVariables_getElem?, firstColumn, same, hasColumn] at less
    simp only [Option.map_some, Option.getD_some] at less
    omega
  exact ⟨apart _ (.inl rfl), apart _ (.inr rfl), different.symm⟩

theorem ownOperands (order : IterationOrder) {rule : AxiomNumericComputation} (isRule : rule ∈ rules) :
    rule.effectVar ≠ rule.leftVar ∧ rule.effectVar ≠ rule.rightVar := by
  obtain ⟨_, _, _, effectColumn, lowerVariables⟩ := rule_layers axioms merges computes order isRule
  have apart : ∀ var, var = rule.leftVar ∨ var = rule.rightVar → rule.effectVar ≠ var := by
    rintro var isOperand rfl
    obtain ⟨operand, operandColumn, isLower⟩ := lowerVariables _ isOperand
    rw [effectColumn] at operandColumn
    cases operandColumn
    omega
  exact ⟨apart _ (.inl rfl), apart _ (.inr rfl)⟩

theorem sortByLayer_fixed (order : IterationOrder) (start : ℕ → ℚ) {rule : AxiomNumericComputation}
    (isRule : rule ∈ rules) :
    let final := (sortByLayer (readVariables order folded constantAxioms axiomMap columns) rules).foldl
      Task.compute start
    final rule.effectVar = rule.fop.eval (final rule.leftVar) (final rule.rightVar) := by
  have perm : (sortByLayer (readVariables order folded constantAxioms axiomMap columns) rules).Perm rules :=
    List.mergeSort_perm _ _
  exact foldl_compute_fixed (sortByLayer_ordered axioms merges computes order)
    (fun _ isRule => ownOperands axioms merges computes order (perm.mem_iff.mp isRule)) start rule
    (perm.mem_iff.mpr isRule)

/-- The values after evaluation are those of the functions. -/
theorem evaluated_value (order : IterationOrder) {functions : String → List String → Option ℚ}
    (agrees : facts.Agrees functions) {start : ℕ → ℚ}
    (fluentValues : ∀ var pne name, columns[var]? = some pne → pne.symbol = .function name →
      pne ∉ folded.map InstantiatedNumericAxiom.effect → functions name pne.args = some (start var))
    (constantValues : ∀ var pne value, columns[var]? = some pne → pne ∈ constantAxioms →
      facts.HasConstant pne value → start var = value)
    {pne : Pne} (settled : facts.Settled folded pne) {value : ℚ}
    (evaluates : pne.eval functions = some value) {var : ℕ}
    (hasVariable : numericDictionary columns axiomMap pne = some var) :
    (sortByLayer (readVariables order folded constantAxioms axiomMap columns) rules).foldl Task.compute start
      var = value := by
  have perm : (sortByLayer (readVariables order folded constantAxioms axiomMap columns) rules).Perm rules :=
    List.mergeSort_perm _ _
  -- Only the axioms' own variables change.
  have unchanged : ∀ var column, columns[var]? = some column →
      (∀ numericAxiom ∈ writtenAxioms folded constantAxioms axiomMap, numericAxiom.effect ≠ column) →
      (sortByLayer (readVariables order folded constantAxioms axiomMap columns) rules).foldl Task.compute
        start var = start var := by
    intro var column hasColumn notEffect
    apply foldl_compute_of_notMem
    rintro rule isRule rfl
    obtain ⟨numericAxiom, isWritten, _, effectColumn, _⟩ :=
      rule_layers axioms merges computes order (perm.mem_iff.mp isRule)
    rw [hasColumn] at effectColumn
    exact notEffect numericAxiom isWritten (Option.some.inj effectColumn).symm
  induction rank : (axiomLayer folded constantAxioms pne + 1).toNat using Nat.strong_induction_on
    generalizing pne value var with
  | _ layer inductionHypothesis =>
    have hasColumn := numericDictionary_column hasVariable
    obtain ⟨name, isFunction, _, notEffect⟩ | isEffect := axioms.settled_cases settled
    · have same : axiomMap.representative pne = pne := by
        obtain ⟨_, same⟩ | merged := merges.representative_cases pne
        · exact same
        · exact absurd merged.isProcessed notEffect
      rw [same] at hasColumn
      rw [unchanged var pne hasColumn]
      · have known := fluentValues var pne name hasColumn isFunction notEffect
        rw [Pne.eval, isFunction] at evaluates
        rw [Symbol.eval, known] at evaluates
        exact Option.some.inj evaluates
      · rintro numericAxiom isWritten rfl
        exact notEffect (List.mem_map_of_mem (mem_writtenAxioms.mp isWritten).1)
    · by_cases isConstant : pne ∈ constantAxioms
      · obtain ⟨constant, hasConstant, _, _⟩ := axioms.constant pne isConstant
        have isConstant' := (merges.representative_constant pne).mpr isConstant
        have same : axiomMap.representative pne = pne := by
          obtain ⟨_, same⟩ | merged := merges.representative_cases pne
          · exact same
          · exact absurd isConstant merged.varies
        rw [same] at hasColumn
        have known := Pne.eval_mono agrees hasConstant.2
        rw [evaluates] at known
        cases known
        rw [unchanged var pne hasColumn, constantValues var pne value hasColumn isConstant hasConstant]
        rintro numericAxiom isWritten rfl
        exact (mem_writtenAxioms.mp isWritten).2.2 isConstant
      · -- The representative's axiom is written, and its operands are in lower layers.
        have representsValue : (axiomMap.representative pne).eval functions = some value := by
          rw [merges.eval_representative agrees, evaluates]
        obtain ⟨numericAxiom, isAxiom, sameEffect⟩ :=
          List.mem_map.mp ((merges.representative_effect pne).mpr isEffect)
        have notConstant : numericAxiom.effect ∉ constantAxioms := by
          rw [sameEffect, merges.representative_constant]
          exact isConstant
        have unmapped : numericAxiom.effect ∉ axiomMap.map Prod.fst := by
          rw [sameEffect]
          exact merges.representative_unmapped pne
        have isWritten := mem_writtenAxioms.mpr ⟨isAxiom, unmapped, notConstant⟩
        obtain ⟨rule, isRule, ruleComputes⟩ := exists_of_forall₂_left computes isWritten
        obtain ⟨op, first, second, hasOp, operator, operands, parts, combines, _⟩ :=
          axioms.operands isAxiom notConstant
        obtain ⟨hasFop, hasEffect, left, right, ruleParts, hasLeft, hasRight⟩ := ruleComputes
        rw [parts] at ruleParts
        cases ruleParts
        have sameVar : rule.effectVar = var := by
          have represented : numericDictionary columns axiomMap numericAxiom.effect =
              numericDictionary columns axiomMap pne := by
            rw [numericDictionary, numericDictionary, merges.column_effect unmapped, sameEffect]
          rw [represented, hasVariable] at hasEffect
          exact (Option.some.inj hasEffect).symm
        rw [← sameEffect, eval_two_operands operator operands combines] at representsValue
        simp only [List.mapM_cons, List.mapM_nil, Option.bind_eq_bind, Option.pure_def, Option.bind_some,
          Option.bind_eq_some_iff] at representsValue
        obtain ⟨_, ⟨firstValue, firstEvaluates, _, ⟨secondValue, secondEvaluates, same⟩, same'⟩, applies⟩ :=
          representsValue
        cases same
        cases same'
        have layerOf : axiomLayer folded constantAxioms numericAxiom.effect =
            axiomLayer folded constantAxioms pne := by
          rw [sameEffect, merges.representative_layer]
        have lower : ∀ operand, operand = facts.settle first ∨ operand = facts.settle second →
            (axiomLayer folded constantAxioms operand + 1).toNat < layer := by
          intro operand isOperand
          have below : axiomLayer folded constantAxioms operand <
              axiomLayer folded constantAxioms numericAxiom.effect := by
            apply axiomLayer_operand_lt axioms isAxiom notConstant
            rw [parts]
            obtain rfl | rfl := isOperand <;> simp
          have nonneg := axiomLayer_nonneg axioms isAxiom notConstant
          omega
        have closed := axioms.closed numericAxiom isAxiom notConstant
        have leftValue := inductionHypothesis _ (lower _ (.inl rfl)) (closed first (by simp [operands]))
          (by rw [eval_settle agrees, firstEvaluates]) hasLeft rfl
        have rightValue := inductionHypothesis _ (lower _ (.inr rfl)) (closed second (by simp [operands]))
          (by rw [eval_settle agrees, secondEvaluates]) hasRight rfl
        have fixed := sortByLayer_fixed axioms merges computes order start isRule
        dsimp only at fixed
        rw [sameVar, leftValue, rightValue] at fixed
        rw [fixed]
        apply CalOperator.apply_pair
        rw [hasOp] at hasFop
        rwa [← Option.some.inj hasFop]

end Rules

end NumericFacts

end CutPlan.Translate
