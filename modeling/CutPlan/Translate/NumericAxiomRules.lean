import CutPlan.Translate.ConstantFolding
import Mathlib.Data.List.Nodup

/-! # Layers and equivalent axioms

The axioms that are not constant are put into layers, and in each layer axioms with the same operator and
equivalent operands are identified.
-/

namespace CutPlan.Translate

open CutPlan.Sas

/-! ## Layers -/

/-- The layer is -1 for constants and for what no axiom computes.  The fuel bounds the depth of the
recursion. -/
def computeLayer (axioms : List InstantiatedNumericAxiom) (constantAxioms : List Pne) :
    ℕ → NumericPart → ℤ
  | 0, _ => -1
  | _ + 1, .numericConstant _ => -1
  | fuel + 1, .pne pne =>
    match axioms.find? (·.effect = pne) with
    | none => -1
    | some numericAxiom =>
      if pne ∈ constantAxioms then -1
      else (numericAxiom.parts.map fun part =>
        computeLayer axioms constantAxioms fuel part + 1).foldl max 0

def axiomLayer (axioms : List InstantiatedNumericAxiom) (constantAxioms : List Pne) (pne : Pne) : ℤ :=
  computeLayer axioms constantAxioms (pne.depth + 1) (.pne pne)

/-- The orders in which the dictionaries are iterated: layers in ascending order, save that the constants'
layer can come last, and the axioms of a layer in any order.  Before they are numbered the axioms of a layer
are sorted by their names. -/
structure IterationOrder where
  constantsFirst : Bool
  ofDictionary : List InstantiatedNumericAxiom → List InstantiatedNumericAxiom
  ofDictionary_perm : ∀ axioms, (ofDictionary axioms).Perm axioms
  byName : List InstantiatedNumericAxiom → List InstantiatedNumericAxiom
  byName_perm : ∀ axioms, (byName axioms).Perm axioms

def layerKeys (order : IterationOrder) (axioms : List InstantiatedNumericAxiom)
    (constantAxioms : List Pne) : List ℤ :=
  let maxLayer := (axioms.map fun numericAxiom =>
    axiomLayer axioms constantAxioms numericAxiom.effect).foldl max (-2)
  let layers := (List.range (maxLayer + 1).toNat).map Int.ofNat
  if order.constantsFirst then -1 :: layers else layers ++ [-1]

def layerToAxioms (order : IterationOrder) (axioms : List InstantiatedNumericAxiom)
    (constantAxioms : List Pne) (layer : ℤ) : List InstantiatedNumericAxiom :=
  order.ofDictionary (axioms.filter fun numericAxiom =>
    axiomLayer axioms constantAxioms numericAxiom.effect = layer)

/-! ## Equivalent axioms -/

abbrev AxiomMap := List (Pne × Pne)

abbrev EquivalenceKey := Option CalOperator × List NumericPart

def AxiomMap.representative (axiomMap : AxiomMap) (pne : Pne) : Pne :=
  match axiomMap.find? (·.1 = pne) with
  | some entry => entry.2
  | none => pne

def NumericPart.mapped (axiomMap : AxiomMap) : NumericPart → NumericPart
  | .numericConstant value => .numericConstant value
  | .pne function => .pne (axiomMap.representative function)

/-- Numbers are hashed by their address, so that constant axioms never have the same key. -/
def identifyAxiom (state : AxiomMap × List (EquivalenceKey × Pne))
    (numericAxiom : InstantiatedNumericAxiom) : AxiomMap × List (EquivalenceKey × Pne) :=
  let key := (numericAxiom.op, numericAxiom.parts.map (NumericPart.mapped state.1))
  match state.2.find? fun entry => numericAxiom.op.isSome && entry.1 = key with
  | some entry => (state.1 ++ [(numericAxiom.effect, entry.2)], state.2)
  | none => (state.1, state.2 ++ [(key, numericAxiom.effect)])

def identifyEquivalentAxioms (layers : List (List InstantiatedNumericAxiom)) : AxiomMap :=
  layers.foldl (fun axiomMap axioms => (axioms.foldl identifyAxiom (axiomMap, [])).1) []

namespace NumericFacts

variable {facts : NumericFacts} {folded : List InstantiatedNumericAxiom} {constantAxioms : List Pne}

/-! ## Layers grow -/

theorem FoldedAxioms.find_eq (axioms : facts.FoldedAxioms folded constantAxioms)
    {numericAxiom : InstantiatedNumericAxiom} (isAxiom : numericAxiom ∈ folded) :
    folded.find? (·.effect = numericAxiom.effect) = some numericAxiom := by
  have found : ∃ entry, folded.find? (·.effect = numericAxiom.effect) = some entry := by
    rw [← Option.isSome_iff_exists, List.find?_isSome]
    exact ⟨numericAxiom, isAxiom, by simp⟩
  obtain ⟨entry, isFound⟩ := found
  have sameEffect : entry.effect = numericAxiom.effect := by simpa using List.find?_some isFound
  rw [isFound, List.inj_on_of_nodup_map axioms.nodup (List.mem_of_find?_eq_some isFound) isAxiom sameEffect]

/-- A computed axiom has two operands, which are less deep. -/
theorem FoldedAxioms.operands (axioms : facts.FoldedAxioms folded constantAxioms)
    {numericAxiom : InstantiatedNumericAxiom} (isAxiom : numericAxiom ∈ folded)
    (notConstant : numericAxiom.effect ∉ constantAxioms) :
    ∃ op first second, numericAxiom.op = some op ∧ numericAxiom.effect.operator = some op ∧
      numericAxiom.effect.operands = [first, second] ∧
      numericAxiom.parts = [.pne (facts.settle first), .pne (facts.settle second)] ∧
      (∀ values, numericAxiom.effect.combine values = op.apply values) ∧
      (facts.settle first).depth < numericAxiom.effect.depth ∧
      (facts.settle second).depth < numericAxiom.effect.depth := by
  obtain ⟨computes, op, first, second, isOperation⟩ := axioms.computed numericAxiom isAxiom notConstant
  have operator : numericAxiom.effect.operator = some op := by rw [Pne.operator, isOperation]
  obtain ⟨first', second', operands⟩ : ∃ first' second',
      numericAxiom.effect.operands = [first', second'] := by
    rw [Pne.operands, isOperation]
    exact ⟨_, _, rfl⟩
  have unfolds := groundAxiom_of_operator facts operator
  rw [← computes, operands] at unfolds
  refine ⟨op, first', second', ?_, operator, operands, ?_, ?_, ?_, ?_⟩
  · rw [unfolds]
  · rw [unfolds]
    rfl
  · intro values
    simp [Pne.combine, isOperation]
  · rw [depth_settle]
    exact Pne.depth_operand_lt (by simp [operands])
  · rw [depth_settle]
    exact Pne.depth_operand_lt (by simp [operands])

theorem computeLayer_eq (axioms : facts.FoldedAxioms folded constantAxioms) {fuel : ℕ} {pne : Pne}
    (enough : pne.depth < fuel) :
    computeLayer folded constantAxioms fuel (.pne pne) = axiomLayer folded constantAxioms pne := by
  induction fuel using Nat.strong_induction_on generalizing pne with
  | _ fuel inductionHypothesis =>
    cases fuel with
    | zero => omega
    | succ fuel =>
      rw [axiomLayer, computeLayer, computeLayer]
      cases isFound : folded.find? (·.effect = pne) with
      | none => rfl
      | some numericAxiom =>
        have isEffect : numericAxiom.effect = pne := by simpa using List.find?_some isFound
        subst isEffect
        by_cases isConstant : numericAxiom.effect ∈ constantAxioms
        · simp [isConstant]
        · obtain ⟨op, first, second, _, _, _, parts, _, smaller, smaller'⟩ :=
            axioms.operands (List.mem_of_find?_eq_some isFound) isConstant
          have firstSame := inductionHypothesis fuel (by omega) (show (facts.settle first).depth < fuel by omega)
          have secondSame :=
            inductionHypothesis fuel (by omega) (show (facts.settle second).depth < fuel by omega)
          have firstOwn := inductionHypothesis numericAxiom.effect.depth (by omega) smaller
          have secondOwn := inductionHypothesis numericAxiom.effect.depth (by omega) smaller'
          simp [isConstant, parts, firstSame, secondSame, firstOwn, secondOwn]

/-- Operands are in lower layers. -/
theorem axiomLayer_operand_lt (axioms : facts.FoldedAxioms folded constantAxioms)
    {numericAxiom : InstantiatedNumericAxiom} (isAxiom : numericAxiom ∈ folded)
    (notConstant : numericAxiom.effect ∉ constantAxioms) {pne : Pne}
    (isPart : .pne pne ∈ numericAxiom.parts) :
    axiomLayer folded constantAxioms pne < axiomLayer folded constantAxioms numericAxiom.effect := by
  obtain ⟨op, first, second, _, _, _, parts, _, smaller, smaller'⟩ := axioms.operands isAxiom notConstant
  have layer : axiomLayer folded constantAxioms numericAxiom.effect =
      max (max 0 (axiomLayer folded constantAxioms (facts.settle first) + 1))
        (axiomLayer folded constantAxioms (facts.settle second) + 1) := by
    rw [axiomLayer, computeLayer, axioms.find_eq isAxiom]
    simp [notConstant, parts, computeLayer_eq axioms smaller, computeLayer_eq axioms smaller']
  rw [parts] at isPart
  obtain rfl | rfl := by simpa using isPart
  · omega
  · omega

theorem axiomLayer_nonneg (axioms : facts.FoldedAxioms folded constantAxioms)
    {numericAxiom : InstantiatedNumericAxiom} (isAxiom : numericAxiom ∈ folded)
    (notConstant : numericAxiom.effect ∉ constantAxioms) :
    0 ≤ axiomLayer folded constantAxioms numericAxiom.effect := by
  obtain ⟨op, first, second, _, _, _, parts, _⟩ := axioms.operands isAxiom notConstant
  rw [axiomLayer, computeLayer, axioms.find_eq isAxiom]
  simp [notConstant, parts]

/-! ## Identified axioms have the same value -/

/-- Functions that no reachable action changes have their initial value. -/
def Agrees (facts : NumericFacts) (functions : String → List String → Option ℚ) : Prop :=
  ∀ name args value, facts.static name args = some value → functions name args = some value

def partValue (functions : String → List String → Option ℚ) : NumericPart → Option ℚ
  | .numericConstant value => some value
  | .pne function => function.eval functions

def keyValue (functions : String → List String → Option ℚ) (key : EquivalenceKey) : Option ℚ :=
  key.1.bind fun op => (key.2.mapM (partValue functions)).bind op.apply

/-- What holds of an entry of the map: an axiom and its representative are computed in one layer and have
the same value. -/
structure Merged (facts : NumericFacts) (folded : List InstantiatedNumericAxiom) (constantAxioms : List Pne)
    (processed : List Pne) (axiomMap : AxiomMap) (pne representative : Pne) : Prop where
  isProcessed : pne ∈ processed
  varies : pne ∉ constantAxioms
  representsProcessed : representative ∈ processed
  representativeVaries : representative ∉ constantAxioms
  unmapped : representative ∉ axiomMap.map Prod.fst
  sameLayer : axiomLayer folded constantAxioms pne = axiomLayer folded constantAxioms representative
  sameValue : ∀ functions, facts.Agrees functions → pne.eval functions = representative.eval functions

def Merges (facts : NumericFacts) (folded : List InstantiatedNumericAxiom) (constantAxioms : List Pne)
    (processed : List Pne) (axiomMap : AxiomMap) : Prop :=
  ∀ entry ∈ axiomMap, facts.Merged folded constantAxioms processed axiomMap entry.1 entry.2

/-- A key of a layer stands for the value of the axiom that has it. -/
def Keys (facts : NumericFacts) (folded : List InstantiatedNumericAxiom) (constantAxioms : List Pne)
    (processed : List Pne) (axiomMap : AxiomMap) (layer : ℤ)
    (keyToUnique : List (EquivalenceKey × Pne)) : Prop :=
  ∀ entry ∈ keyToUnique, entry.2 ∈ processed ∧ entry.2 ∉ axiomMap.map Prod.fst ∧
    axiomLayer folded constantAxioms entry.2 = layer ∧
    (entry.1.1.isSome = true → entry.2 ∉ constantAxioms ∧
      ∀ functions, facts.Agrees functions → keyValue functions entry.1 = entry.2.eval functions)

theorem Merges.eval_representative {processed : List Pne} {axiomMap : AxiomMap}
    (merges : facts.Merges folded constantAxioms processed axiomMap) {functions : String → List String → Option ℚ}
    (agrees : facts.Agrees functions) (pne : Pne) :
    (axiomMap.representative pne).eval functions = pne.eval functions := by
  unfold AxiomMap.representative
  cases found : axiomMap.find? (·.1 = pne) with
  | none => rfl
  | some entry =>
    have merged := merges entry (List.mem_of_find?_eq_some found)
    obtain rfl : entry.1 = pne := by simpa using List.find?_some found
    exact (merged.sameValue functions agrees).symm

theorem eval_two_operands {functions : String → List String → Option ℚ} {pne first second : Pne}
    {op : CalOperator} (operator : pne.operator = some op) (operands : pne.operands = [first, second])
    (combines : ∀ values, pne.combine values = op.apply values) :
    pne.eval functions =
      ([first, second].mapM (Pne.eval functions)).bind op.apply := by
  apply Option.ext
  intro value
  rw [Pne.eval_eq_some operator, operands]
  simp only [combines, List.mapM_cons, List.mapM_nil, Option.bind_eq_bind, Option.pure_def,
    Option.bind_some, Option.bind_eq_some_iff, List.forall₂_cons_left_iff, List.forall₂_nil_left_iff]
  grind

theorem keyValue_eq (axioms : facts.FoldedAxioms folded constantAxioms)
    {numericAxiom : InstantiatedNumericAxiom} (isAxiom : numericAxiom ∈ folded)
    (notConstant : numericAxiom.effect ∉ constantAxioms) {processed : List Pne} {axiomMap : AxiomMap}
    (merges : facts.Merges folded constantAxioms processed axiomMap) {functions : String → List String → Option ℚ}
    (agrees : facts.Agrees functions) :
    keyValue functions (numericAxiom.op, numericAxiom.parts.map (NumericPart.mapped axiomMap)) =
      numericAxiom.effect.eval functions := by
  obtain ⟨op, first, second, hasOp, operator, operands, parts, combines, _⟩ :=
    axioms.operands isAxiom notConstant
  rw [eval_two_operands operator operands combines]
  simp [keyValue, hasOp, parts, NumericPart.mapped, partValue, merges.eval_representative agrees,
    eval_settle agrees]

theorem Merged.grow {processed more : List Pne} {axiomMap grown : AxiomMap} {pne representative : Pne}
    (merged : facts.Merged folded constantAxioms processed axiomMap pne representative)
    (subset : processed ⊆ more) (unmapped : representative ∉ grown.map Prod.fst) :
    facts.Merged folded constantAxioms more grown pne representative :=
  { merged with
    isProcessed := subset merged.isProcessed
    representsProcessed := subset merged.representsProcessed
    unmapped }

theorem identifyAxiom_merges (axioms : facts.FoldedAxioms folded constantAxioms)
    {numericAxiom : InstantiatedNumericAxiom} (isAxiom : numericAxiom ∈ folded) {processed : List Pne}
    (isNew : numericAxiom.effect ∉ processed) {layer : ℤ}
    (inLayer : axiomLayer folded constantAxioms numericAxiom.effect = layer) {axiomMap : AxiomMap}
    {keyToUnique : List (EquivalenceKey × Pne)}
    (merges : facts.Merges folded constantAxioms processed axiomMap)
    (keys : facts.Keys folded constantAxioms processed axiomMap layer keyToUnique) :
    facts.Merges folded constantAxioms (processed ++ [numericAxiom.effect])
        (identifyAxiom (axiomMap, keyToUnique) numericAxiom).1 ∧
      facts.Keys folded constantAxioms (processed ++ [numericAxiom.effect])
        (identifyAxiom (axiomMap, keyToUnique) numericAxiom).1 layer
        (identifyAxiom (axiomMap, keyToUnique) numericAxiom).2 := by
  have operated : numericAxiom.op.isSome = true → numericAxiom.effect ∉ constantAxioms := by
    intro hasOp isConstant
    obtain ⟨value, _, _, isFolded⟩ := axioms.constant _ isConstant
    have same := List.inj_on_of_nodup_map axioms.nodup isAxiom isFolded rfl
    rw [same] at hasOp
    simp [foldedAxiom] at hasOp
  have grows : processed ⊆ processed ++ [numericAxiom.effect] := List.subset_append_left _ _
  unfold identifyAxiom
  dsimp only
  split
  · rename_i entry found
    have isEntry := List.mem_of_find?_eq_some found
    obtain ⟨hasOp, sameKey⟩ : numericAxiom.op.isSome = true ∧
        entry.1 = (numericAxiom.op, numericAxiom.parts.map (NumericPart.mapped axiomMap)) := by
      simpa using List.find?_some found
    have notConstant := operated hasOp
    obtain ⟨isProcessed, notMapped, keyLayer, value⟩ := keys entry isEntry
    obtain ⟨varies, keyed⟩ := value (by rw [sameKey]; exact hasOp)
    -- The axiom that is mapped is new, hence no representative.
    have staysUnmapped : ∀ pne ∈ processed, pne ∉ axiomMap.map Prod.fst →
        pne ∉ (axiomMap ++ [(numericAxiom.effect, entry.2)]).map Prod.fst := by
      intro pne isOld unmapped isMapped
      obtain isMapped | rfl := by simpa using isMapped
      · exact unmapped (List.mem_map.mpr ⟨_, isMapped.choose_spec, rfl⟩)
      · exact isNew isOld
    refine ⟨?_, ?_⟩
    · intro added isAdded
      obtain isOld | rfl := by simpa using isAdded
      · have merged := merges added isOld
        exact merged.grow grows (staysUnmapped _ merged.representsProcessed merged.unmapped)
      · exact {
          isProcessed := by simp
          varies := notConstant
          representsProcessed := grows isProcessed
          representativeVaries := varies
          unmapped := staysUnmapped _ isProcessed notMapped
          sameLayer := by rw [inLayer, keyLayer]
          sameValue := by
            intro functions agrees
            rw [← keyed functions agrees, sameKey, keyValue_eq axioms isAxiom notConstant merges agrees] }
    · intro other isOther
      obtain ⟨old, unmapped, stands⟩ := keys other isOther
      exact ⟨grows old, staysUnmapped _ old unmapped, stands⟩
  · refine ⟨fun added isAdded => (merges added isAdded).grow grows (merges added isAdded).unmapped, ?_⟩
    intro other isOther
    obtain isOld | rfl := by simpa using isOther
    · obtain ⟨old, unmapped, stands⟩ := keys other isOld
      exact ⟨grows old, unmapped, stands⟩
    · refine ⟨by simp, ?_, inLayer, ?_⟩
      · intro isMapped
        obtain ⟨entry, isEntry, isEffect⟩ := List.mem_map.mp isMapped
        have isOld := (merges entry isEntry).isProcessed
        rw [isEffect] at isOld
        exact isNew isOld
      · intro hasOp
        exact ⟨operated hasOp, fun functions agrees =>
          keyValue_eq axioms isAxiom (operated hasOp) merges agrees⟩

theorem foldl_identifyAxiom_merges (axioms : facts.FoldedAxioms folded constantAxioms)
    {group : List InstantiatedNumericAxiom} (areAxioms : group ⊆ folded) {layer : ℤ}
    (inLayer : ∀ numericAxiom ∈ group, axiomLayer folded constantAxioms numericAxiom.effect = layer)
    {processed : List Pne} (areNew : (processed ++ group.map InstantiatedNumericAxiom.effect).Nodup)
    {axiomMap : AxiomMap} {keyToUnique : List (EquivalenceKey × Pne)}
    (merges : facts.Merges folded constantAxioms processed axiomMap)
    (keys : facts.Keys folded constantAxioms processed axiomMap layer keyToUnique) :
    facts.Merges folded constantAxioms (processed ++ group.map InstantiatedNumericAxiom.effect)
      (group.foldl identifyAxiom (axiomMap, keyToUnique)).1 := by
  induction group generalizing processed axiomMap keyToUnique with
  | nil => simpa using merges
  | cons numericAxiom group inductionHypothesis =>
    rw [List.cons_subset] at areAxioms
    rw [List.forall_mem_cons] at inLayer
    have isNew : numericAxiom.effect ∉ processed := by
      intro isOld
      exact (List.nodup_append.mp areNew).2.2 _ isOld _ (by simp) rfl
    obtain ⟨nextMerges, nextKeys⟩ := identifyAxiom_merges axioms areAxioms.1 isNew inLayer.1 merges keys
    have continues := inductionHypothesis areAxioms.2 inLayer.2 (by simpa using areNew) nextMerges nextKeys
    simpa using continues

/-! ## The layers of a dictionary -/

variable {order : IterationOrder}

theorem mem_layerToAxioms {layer : ℤ} {numericAxiom : InstantiatedNumericAxiom} :
    numericAxiom ∈ layerToAxioms order folded constantAxioms layer ↔
      numericAxiom ∈ folded ∧ axiomLayer folded constantAxioms numericAxiom.effect = layer := by
  rw [layerToAxioms, (order.ofDictionary_perm _).mem_iff]
  simp

theorem layerKeys_nodup : (layerKeys order folded constantAxioms).Nodup := by
  have naturals : ∀ count : ℕ, ((List.range count).map Int.ofNat).Nodup := fun count =>
    List.nodup_range.map fun _ _ => Int.ofNat.inj
  unfold layerKeys
  dsimp only
  split
  · simp [naturals]
  · rw [List.nodup_append]
    refine ⟨naturals _, by simp, ?_⟩
    simp

theorem start_le_foldl_max (layers : List ℤ) (start : ℤ) : start ≤ layers.foldl max start := by
  induction layers generalizing start with
  | nil => exact le_rfl
  | cons first layers inductionHypothesis =>
    exact (le_max_left start first).trans (inductionHypothesis _)

theorem le_foldl_max {layers : List ℤ} {layer : ℤ} (isLayer : layer ∈ layers) (start : ℤ) :
    layer ≤ layers.foldl max start := by
  induction layers generalizing start with
  | nil => cases isLayer
  | cons first layers inductionHypothesis =>
    obtain rfl | isLater := List.mem_cons.mp isLayer
    · exact (le_max_right start layer).trans (start_le_foldl_max layers _)
    · exact inductionHypothesis isLater _

theorem neg_one_le_axiomLayer (folded : List InstantiatedNumericAxiom) (constantAxioms : List Pne)
    (pne : Pne) : -1 ≤ axiomLayer folded constantAxioms pne := by
  rw [axiomLayer, computeLayer]
  split
  · exact le_rfl
  · split
    · exact le_rfl
    · exact le_trans (by decide) (start_le_foldl_max _ 0)

theorem axiomLayer_mem_layerKeys (order : IterationOrder) {numericAxiom : InstantiatedNumericAxiom}
    (isAxiom : numericAxiom ∈ folded) :
    axiomLayer folded constantAxioms numericAxiom.effect ∈ layerKeys order folded constantAxioms := by
  have isLayer : axiomLayer folded constantAxioms numericAxiom.effect ∈
      folded.map fun numericAxiom => axiomLayer folded constantAxioms numericAxiom.effect :=
    List.mem_map.mpr ⟨numericAxiom, isAxiom, rfl⟩
  have below := le_foldl_max isLayer (-2)
  have above := neg_one_le_axiomLayer folded constantAxioms numericAxiom.effect
  unfold layerKeys
  dsimp only
  generalize axiomLayer folded constantAxioms numericAxiom.effect = layer at below above
  have isKey : layer = -1 ∨ layer ∈ (List.range ((folded.map fun numericAxiom =>
      axiomLayer folded constantAxioms numericAxiom.effect).foldl max (-2) + 1).toNat).map Int.ofNat := by
    obtain rfl | positive : layer = -1 ∨ 0 ≤ layer := by omega
    · exact .inl rfl
    · refine .inr (List.mem_map.mpr ⟨layer.toNat, ?_, by simpa using positive⟩)
      rw [List.mem_range]
      omega
  split
  · exact List.mem_cons.mpr isKey
  · rw [List.mem_append, List.mem_singleton]
    exact isKey.symm

/-- Axioms of the layers, in the order of the dictionary. -/
def layered (order : IterationOrder) (folded : List InstantiatedNumericAxiom) (constantAxioms : List Pne) :
    List (List InstantiatedNumericAxiom) :=
  (layerKeys order folded constantAxioms).map (layerToAxioms order folded constantAxioms)

theorem mem_flatten_layered {numericAxiom : InstantiatedNumericAxiom} :
    numericAxiom ∈ (layered order folded constantAxioms).flatten ↔ numericAxiom ∈ folded := by
  rw [layered, ← List.flatMap_def, List.mem_flatMap]
  constructor
  · rintro ⟨layer, _, isAxiom⟩
    exact (mem_layerToAxioms.mp isAxiom).1
  · intro isAxiom
    exact ⟨_, axiomLayer_mem_layerKeys order isAxiom, mem_layerToAxioms.mpr ⟨isAxiom, rfl⟩⟩

theorem FoldedAxioms.layerToAxioms_nodup (axioms : facts.FoldedAxioms folded constantAxioms) (layer : ℤ) :
    ((layerToAxioms order folded constantAxioms layer).map InstantiatedNumericAxiom.effect).Nodup := by
  rw [layerToAxioms, ((order.ofDictionary_perm _).map _).nodup_iff]
  exact axioms.nodup.sublist (List.filter_sublist.map _)

theorem FoldedAxioms.layered_nodup (axioms : facts.FoldedAxioms folded constantAxioms) :
    ((layered order folded constantAxioms).flatten.map InstantiatedNumericAxiom.effect).Nodup := by
  rw [layered, ← List.flatMap_def, List.map_flatMap, List.nodup_flatMap]
  refine ⟨fun layer _ => axioms.layerToAxioms_nodup layer, ?_⟩
  apply layerKeys_nodup.imp
  intro first second different
  apply List.disjoint_left.mpr
  intro effect inFirst inSecond
  obtain ⟨numericAxiom, isFirst, rfl⟩ := List.mem_map.mp inFirst
  obtain ⟨other, isSecond, sameEffect⟩ := List.mem_map.mp inSecond
  rw [mem_layerToAxioms] at isFirst isSecond
  apply different
  rw [← isFirst.2, ← isSecond.2, sameEffect]

theorem identifyEquivalentAxioms_merges (order : IterationOrder)
    (axioms : facts.FoldedAxioms folded constantAxioms) :
    facts.Merges folded constantAxioms (folded.map InstantiatedNumericAxiom.effect)
      (identifyEquivalentAxioms (layered order folded constantAxioms)) := by
  have steps : ∀ (layers : List ℤ) (processed : List Pne) (axiomMap : AxiomMap),
      (processed ++ (layers.map (layerToAxioms order folded constantAxioms)).flatten.map
        InstantiatedNumericAxiom.effect).Nodup →
      facts.Merges folded constantAxioms processed axiomMap →
      facts.Merges folded constantAxioms
        (processed ++ (layers.map (layerToAxioms order folded constantAxioms)).flatten.map
          InstantiatedNumericAxiom.effect)
        ((layers.map (layerToAxioms order folded constantAxioms)).foldl
          (fun axiomMap axioms => (axioms.foldl identifyAxiom (axiomMap, [])).1) axiomMap) := by
    intro layers
    induction layers with
    | nil =>
      intro processed axiomMap _ merges
      simpa using merges
    | cons layer layers inductionHypothesis =>
      intro processed axiomMap nodup merges
      rw [List.map_cons, List.flatten_cons, List.map_append, ← List.append_assoc] at nodup ⊢
      apply inductionHypothesis _ _ nodup
      have inLayer : ∀ numericAxiom ∈ layerToAxioms order folded constantAxioms layer,
          axiomLayer folded constantAxioms numericAxiom.effect = layer := fun _ isAxiom =>
        (mem_layerToAxioms.mp isAxiom).2
      apply foldl_identifyAxiom_merges axioms (fun _ isAxiom => (mem_layerToAxioms.mp isAxiom).1) inLayer
        (List.nodup_append.mp nodup).1 merges
      intro entry isEntry
      cases isEntry
  have merges := steps (layerKeys order folded constantAxioms) [] [] axioms.layered_nodup (by
    intro entry isEntry
    cases isEntry)
  intro entry isEntry
  apply (merges entry isEntry).grow _ (merges entry isEntry).unmapped
  intro effect isEffect
  obtain ⟨numericAxiom, isAxiom, rfl⟩ := List.mem_map.mp isEffect
  exact List.mem_map_of_mem (mem_flatten_layered.mp isAxiom)

end NumericFacts

end CutPlan.Translate
