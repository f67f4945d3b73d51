import CutPlan.Lib.Rounds
import CutPlan.Translate.ChangingAxioms
import Mathlib.Data.List.MinMax

/-! # Evaluation of the processed axioms

The processed axioms are evaluated layer by layer from the initial values.  If recursion is safe, the
needed atoms get their values in the stratified model.
-/

namespace CutPlan.Translate.AxiomRules

open CutPlan.Lib

variable {Atom : Type} [DecidableEq Atom]

/-! ## Evaluation -/

namespace Result

variable (result : Result Atom)

def fires (layer : ℕ) (valuation : Atom → Bool) (atom : Atom) : Bool :=
  result.axioms.any fun rule => rule.effect.atom = atom && changesInit result.axiomInit rule &&
    result.axiomLayers atom = some layer && bodyHolds valuation rule.condition

/-- Applies the axioms of a layer at once; an axiom for the initial value changes nothing. -/
def applyLayer (layer : ℕ) (valuation : Atom → Bool) : Atom → Bool := fun atom =>
  if result.fires layer valuation atom then !decide (atom ∈ result.axiomInit) else valuation atom

def layerCount : ℕ :=
  (result.axioms.map fun rule => (result.axiomLayers rule.effect.atom).getD 0).foldr max 0 + 1

/-- The atoms that head an axiom of the task have their initial values, all others those of the state. -/
def initialValues (axioms : List (PropositionalAxiom Atom)) (state : Atom → Bool) : Atom → Bool :=
  fun atom =>
    if axioms.any fun rule => rule.effect.atom = atom then decide (atom ∈ result.axiomInit)
    else state atom

/-- No layer needs more rounds than there are axioms. -/
def evaluate (axioms : List (PropositionalAxiom Atom)) (state : Atom → Bool) : Atom → Bool :=
  (List.range result.layerCount).foldl
    (fun valuation layer => (result.applyLayer layer)^[result.axioms.length] valuation)
    (result.initialValues axioms state)

variable {result}

theorem fires_iff {layer : ℕ} {valuation : Atom → Bool} {atom : Atom} :
    result.fires layer valuation atom = true ↔ result.axiomLayers atom = some layer ∧
      ∃ rule ∈ result.axioms, rule.effect.atom = atom ∧ changesInit result.axiomInit rule = true ∧
        bodyHolds valuation rule.condition = true := by
  simp only [fires, List.any_eq_true, Bool.and_eq_true, decide_eq_true_eq]
  constructor
  · rintro ⟨rule, isRule, ⟨⟨same, changes⟩, inLayer⟩, holds⟩
    exact ⟨inLayer, rule, isRule, same, changes, holds⟩
  · rintro ⟨inLayer, rule, isRule, same, changes, holds⟩
    exact ⟨rule, isRule, ⟨⟨same, changes⟩, inLayer⟩, holds⟩

theorem applyLayer_of_layer_ne {layer : ℕ} {valuation : Atom → Bool} {atom : Atom}
    (other : result.axiomLayers atom ≠ some layer) :
    result.applyLayer layer valuation atom = valuation atom :=
  if_neg fun fires => other (fires_iff.mp fires).1

/-! ## Rounds of a layer -/

def changedAtoms (result : Result Atom) (valuation : Atom → Bool) : Finset Atom :=
  (result.axioms.map fun rule => rule.effect.atom).toFinset.filter fun atom =>
    valuation atom = !decide (atom ∈ result.axiomInit)

theorem changedAtoms_card_le (valuation : Atom → Bool) :
    (result.changedAtoms valuation).card ≤ result.axioms.length := by
  calc (result.changedAtoms valuation).card
      ≤ (result.axioms.map fun rule => rule.effect.atom).toFinset.card := Finset.card_filter_le _ _
    _ ≤ (result.axioms.map fun rule => rule.effect.atom).length := List.toFinset_card_le _
    _ = result.axioms.length := List.length_map _

theorem changedAtoms_grow (layer : ℕ) (valuation : Atom → Bool) :
    result.changedAtoms valuation ⊆ result.changedAtoms (result.applyLayer layer valuation) := by
  intro atom member
  rw [changedAtoms, Finset.mem_filter] at member ⊢
  refine ⟨member.1, ?_⟩
  unfold applyLayer
  split
  · rfl
  · exact member.2

theorem applyLayer_eq_of_changedAtoms_eq {layer : ℕ} {valuation : Atom → Bool}
    (same : result.changedAtoms valuation =
      result.changedAtoms (result.applyLayer layer valuation)) :
    result.applyLayer layer valuation = valuation := by
  funext atom
  by_cases fires : result.fires layer valuation atom
  · obtain ⟨_, rule, isRule, isEffect, _⟩ := fires_iff.mp fires
    have applied : result.applyLayer layer valuation atom = !decide (atom ∈ result.axiomInit) :=
      if_pos fires
    have member : atom ∈ result.changedAtoms (result.applyLayer layer valuation) := by
      rw [changedAtoms, Finset.mem_filter, List.mem_toFinset]
      exact ⟨List.mem_map.mpr ⟨rule, isRule, isEffect⟩, applied⟩
    rw [← same, changedAtoms, Finset.mem_filter] at member
    rw [applied, member.2]
  · exact if_neg fires

theorem applyLayer_fixed (layer : ℕ) (valuation : Atom → Bool) :
    result.applyLayer layer ((result.applyLayer layer)^[result.axioms.length] valuation) =
      (result.applyLayer layer)^[result.axioms.length] valuation :=
  rounds_fixed (changedAtoms_grow layer) changedAtoms_card_le
    (fun _ same => applyLayer_eq_of_changedAtoms_eq same) valuation

omit [DecidableEq Atom] in
theorem layer_lt_layerCount {rule : PropositionalAxiom Atom} (isRule : rule ∈ result.axioms)
    {layer : ℕ} (inLayer : result.axiomLayers rule.effect.atom = some layer) :
    layer < result.layerCount := by
  refine Nat.lt_succ_of_le (List.le_max_of_le (List.mem_map_of_mem isRule) ?_)
  rw [inLayer, Option.getD_some]

end Result

/-! ## A layer gives its atoms their values in the model -/

section Layer

variable {hash : Literal Atom → ℤ} {axioms : List (PropositionalAxiom Atom)}
  {necessary : List (Literal Atom)} {layers : Atom → Option ℕ} {base model : Atom → Bool}

/-- The result of the processing with the given necessary literals and layers. -/
def processed (hash : Literal Atom → ℤ) (axioms : List (PropositionalAxiom Atom))
    (necessary : List (Literal Atom)) (layers : Atom → Option ℕ) : Result Atom where
  axioms := computeNegativeAxioms hash axioms necessary
  axiomInit := getAxiomInit axioms necessary
  axiomLayers := layers

/-- What the processing has established about the axioms and their layers. -/
structure Processed (hash : Literal Atom → ℤ) (axioms : List (PropositionalAxiom Atom))
    (necessary : List (Literal Atom)) (layers : Atom → Option ℕ) : Prop where
  closed : Closed axioms necessary
  safe : RecursionSafe hash axioms (· ∈ necessary)
  layered : Layered (computeNegativeAxioms hash axioms necessary) (getAxiomInit axioms necessary) layers

/-- The value that an atom does not have before its axioms are applied. -/
def changedValue (axioms : List (PropositionalAxiom Atom)) (necessary : List (Literal Atom))
    (atom : Atom) : Bool :=
  !decide (atom ∈ getAxiomInit axioms necessary)

/-- A valuation while a layer is applied: lower layers agree with the model, higher ones are untouched,
and what has changed in the layer itself is changed in the model. -/
structure Reached (axioms : List (PropositionalAxiom Atom)) (necessary : List (Literal Atom))
    (layers : Atom → Option ℕ) (model : Atom → Bool) (layer : ℕ) (valuation : Atom → Bool) : Prop where
  given : ∀ atom, ¬ LogicProgram.IsHead (program axioms) atom → valuation atom = model atom
  below : ∀ atom lower, layers atom = some lower → lower < layer → valuation atom = model atom
  sound : ∀ atom, layers atom = some layer → valuation atom = changedValue axioms necessary atom →
    model atom = changedValue axioms necessary atom
  above : ∀ atom, LogicProgram.IsHead (program axioms) atom →
    (∀ other, layers atom = some other → layer < other) →
    valuation atom = !changedValue axioms necessary atom

theorem changes_iff (isProcessed : Processed hash axioms necessary layers)
    (isModel : LogicProgram.IsModel (program axioms) base model) {atom : Atom} {negated : Bool}
    (isNeeded : { atom := atom, negated := negated } ∈ necessary) :
    (∃ rule ∈ computeNegativeAxioms hash axioms necessary, rule.effect.atom = atom ∧
        changesInit (getAxiomInit axioms necessary) rule = true ∧
        bodyHolds model rule.condition = true) ↔
      model atom = changedValue axioms necessary atom := by
  rw [changing_holds_iff isProcessed.closed isNeeded,
    defined_iff_model isModel (isProcessed.closed.derived _ isNeeded), changedValue]
  by_cases isInit : atom ∈ getAxiomInit axioms necessary <;> simp [isInit]

/-- A needed atom without a layer keeps its initial value in the model. -/
theorem model_of_no_layer (isProcessed : Processed hash axioms necessary layers)
    (isModel : LogicProgram.IsModel (program axioms) base model) {atom : Atom} {negated : Bool}
    (isNeeded : { atom := atom, negated := negated } ∈ necessary) (noLayer : layers atom = none) :
    model atom = !changedValue axioms necessary atom := by
  rw [Bool.eq_not]
  intro changes
  obtain ⟨rule, isRule, same, changesRule, _⟩ := (changes_iff isProcessed isModel isNeeded).mpr changes
  have member : atom ∈ layeredAtoms (computeNegativeAxioms hash axioms necessary)
      (getAxiomInit axioms necessary) := by
    rw [layeredAtoms, List.mem_dedup]
    exact List.mem_map.mpr ⟨rule, List.mem_filter.mpr ⟨isRule, changesRule⟩, same⟩
  have isSome := isProcessed.layered.isSome atom member
  rw [noLayer] at isSome
  cases isSome

/-- A literal of an axiom that is applied has its value in the model already, or its atom is in the same
layer and must have changed. -/
theorem literal_cases (isProcessed : Processed hash axioms necessary layers)
    (isModel : LogicProgram.IsModel (program axioms) base model) {layer : ℕ} {valuation : Atom → Bool}
    (reached : Reached axioms necessary layers model layer valuation)
    {rule : PropositionalAxiom Atom} (isRule : rule ∈ computeNegativeAxioms hash axioms necessary)
    (changes : changesInit (getAxiomInit axioms necessary) rule = true)
    (inLayer : layers rule.effect.atom = some layer) {literal : Literal Atom}
    (isLiteral : literal ∈ rule.condition) :
    valuation literal.atom = model literal.atom ∨
      layers literal.atom = some layer ∧
        (!literal.negated) = changedValue axioms necessary literal.atom := by
  by_cases isHead : LogicProgram.IsHead (program axioms) literal.atom
  · have isNeeded : { atom := literal.atom, negated := literal.negated } ∈ necessary :=
      changing_literal_necessary isProcessed.closed isRule changes isLiteral isHead
    cases literalLayer : layers literal.atom with
    | none =>
      left
      rw [model_of_no_layer isProcessed isModel isNeeded literalLayer]
      refine reached.above _ isHead fun other isLayer => ?_
      rw [literalLayer] at isLayer
      cases isLayer
    | some lower =>
      have isEdge := mem_dependsOn.mpr ⟨rule, isRule, changes, rfl, literal, isLiteral, rfl⟩
      have le := isProcessed.layered.above _ _ inLayer _ isEdge lower literalLayer
      by_cases isBelow : lower < layer
      · exact .inl (reached.below _ lower literalLayer isBelow)
      · have same : lower = layer := by omega
        have noBonus : bonus (getAxiomInit axioms necessary) literal = 0 := by
          simp only at le
          omega
        refine .inr ⟨congrArg some same, ?_⟩
        rw [changedValue, Bool.eq_not]
        intro asks
        simp [bonus, asks] at noBonus
  · exact .inl (reached.given _ isHead)

theorem necessary_of_layer (isProcessed : Processed hash axioms necessary layers) {atom : Atom} {layer : ℕ}
    (inLayer : layers atom = some layer) :
    { atom := atom, negated := decide (atom ∈ getAxiomInit axioms necessary) } ∈ necessary := by
  by_cases member : atom ∈ layeredAtoms (computeNegativeAxioms hash axioms necessary)
      (getAxiomInit axioms necessary)
  · rw [layeredAtoms, List.mem_dedup] at member
    obtain ⟨rule, isRule, rfl⟩ := List.mem_map.mp member
    obtain ⟨isRule, changes⟩ := List.mem_filter.mp isRule
    exact changing_necessary isProcessed.closed isRule changes
  · rw [isProcessed.layered.isNone atom member] at inLayer
    cases inLayer

theorem Reached.applyLayer (isProcessed : Processed hash axioms necessary layers)
    (isModel : LogicProgram.IsModel (program axioms) base model) {layer : ℕ} {valuation : Atom → Bool}
    (reached : Reached axioms necessary layers model layer valuation) :
    Reached axioms necessary layers model layer
      ((processed hash axioms necessary layers).applyLayer layer valuation) where
  given := by
    intro atom notHead
    rw [Result.applyLayer_of_layer_ne, reached.given atom notHead]
    intro inLayer
    exact notHead (isProcessed.closed.derived _ (necessary_of_layer isProcessed inLayer))
  below := by
    intro atom lower inLayer isBelow
    rw [Result.applyLayer_of_layer_ne, reached.below atom lower inLayer isBelow]
    intro other
    rw [show layers atom = some layer from other, Option.some.injEq] at inLayer
    omega
  sound := by
    intro atom inLayer isChanged
    by_cases fires : (processed hash axioms necessary layers).fires layer valuation atom
    · obtain ⟨_, rule, isRule, rfl, changes, holds⟩ := Result.fires_iff.mp fires
      refine (changes_iff isProcessed isModel (necessary_of_layer isProcessed inLayer)).mp
        ⟨rule, isRule, rfl, changes, bodyHolds_iff.mpr fun literal isLiteral => ?_⟩
      have literalHolds := bodyHolds_iff.mp holds literal isLiteral
      obtain same | ⟨sameLayer, asks⟩ :=
        literal_cases isProcessed isModel reached isRule changes inLayer isLiteral
      · rwa [← Literal.holds_congr same]
      · rw [Literal.holds_iff] at literalHolds ⊢
        rw [asks] at literalHolds ⊢
        exact reached.sound _ sameLayer literalHolds
    · rw [Result.applyLayer, if_neg fires] at isChanged
      exact reached.sound atom inLayer isChanged
  above := by
    intro atom isHead higher
    rw [Result.applyLayer_of_layer_ne, reached.above atom isHead higher]
    intro inLayer
    exact absurd (higher layer inLayer) (lt_irrefl layer)

/-! ## Completeness of a layer -/

/-- What a fixed point of a layer still has to reach: at the levels given, nothing. -/
def CompleteBelow (axioms : List (PropositionalAxiom Atom)) (necessary : List (Literal Atom))
    (layers : Atom → Option ℕ) (model : Atom → Bool) (layer : ℕ) (valuation : Atom → Bool)
    (level : Atom → ℕ) (bound : ℕ) : Prop :=
  ∀ atom, level atom < bound → layers atom = some layer →
    model atom = changedValue axioms necessary atom →
    valuation atom = changedValue axioms necessary atom

/-- At a fixed point an axiom whose body is true in the model has been applied, if its literals of the
same layer have changed as far as they do in the model. -/
theorem changed_of_rule (isProcessed : Processed hash axioms necessary layers)
    (isModel : LogicProgram.IsModel (program axioms) base model) {layer : ℕ} {valuation : Atom → Bool}
    (reached : Reached axioms necessary layers model layer valuation)
    (fixed : (processed hash axioms necessary layers).applyLayer layer valuation = valuation)
    {rule : PropositionalAxiom Atom} (isRule : rule ∈ computeNegativeAxioms hash axioms necessary)
    (changes : changesInit (getAxiomInit axioms necessary) rule = true)
    (inLayer : layers rule.effect.atom = some layer)
    (holds : bodyHolds model rule.condition = true)
    (complete : ∀ literal ∈ rule.condition, layers literal.atom = some layer →
      (!literal.negated) = changedValue axioms necessary literal.atom →
      model literal.atom = changedValue axioms necessary literal.atom →
      valuation literal.atom = changedValue axioms necessary literal.atom) :
    valuation rule.effect.atom = changedValue axioms necessary rule.effect.atom := by
  rw [← congrFun fixed rule.effect.atom]
  refine if_pos (Result.fires_iff.mpr ⟨inLayer, rule, isRule, rfl, changes, bodyHolds_iff.mpr ?_⟩)
  intro literal isLiteral
  have literalHolds := bodyHolds_iff.mp holds literal isLiteral
  obtain same | ⟨sameLayer, asks⟩ :=
    literal_cases isProcessed isModel reached isRule changes inLayer isLiteral
  · rwa [Literal.holds_congr same]
  · rw [Literal.holds_iff] at literalHolds ⊢
    rw [asks] at literalHolds ⊢
    exact complete literal isLiteral sameLayer asks literalHolds

open Classical in
/-- The atoms that are initially true and on which the atom depends. -/
noncomputable def flippedBelow (hash : Literal Atom → ℤ) (axioms : List (PropositionalAxiom Atom))
    (necessary : List (Literal Atom)) (atom : Atom) : Finset Atom :=
  (getAxiomInit axioms necessary).toFinset.filter fun below =>
    Relation.TransGen (Uses hash axioms) atom below

open Classical in
theorem mem_flippedBelow {atom below : Atom} :
    below ∈ flippedBelow hash axioms necessary atom ↔
      below ∈ getAxiomInit axioms necessary ∧ Relation.TransGen (Uses hash axioms) atom below := by
  rw [flippedBelow, Finset.mem_filter, List.mem_toFinset]

theorem flippedBelow_card_lt (isProcessed : Processed hash axioms necessary layers) {atom below : Atom}
    (isInit : below ∈ getAxiomInit axioms necessary) (uses : Uses hash axioms atom below) :
    (flippedBelow hash axioms necessary below).card < (flippedBelow hash axioms necessary atom).card := by
  have onlyNegated := (mem_getAxiomInit isProcessed.closed).mp isInit
  refine Finset.card_lt_card (Finset.ssubset_iff_of_subset (fun other member => ?_) |>.mpr
    ⟨below, ?_, fun member => ?_⟩)
  · rw [mem_flippedBelow] at member ⊢
    exact ⟨member.1, member.2.head uses⟩
  · exact mem_flippedBelow.mpr ⟨isInit, .single uses⟩
  · rw [mem_flippedBelow] at member
    exact onlyNegated.2 (isProcessed.safe below true onlyNegated.1 member.2).1

/-- Atoms that are initially true: by induction on the atoms of this kind that they depend on. -/
theorem complete_flipped (isProcessed : Processed hash axioms necessary layers)
    (isModel : LogicProgram.IsModel (program axioms) base model) {layer : ℕ} {valuation : Atom → Bool}
    (reached : Reached axioms necessary layers model layer valuation)
    (fixed : (processed hash axioms necessary layers).applyLayer layer valuation = valuation)
    {level : Atom → ℕ} (stratifies : LogicProgram.Stratifies (program axioms) level) {bound : ℕ}
    (lower : CompleteBelow axioms necessary layers model layer valuation level bound) {atom : Atom}
    (within : level atom ≤ bound) (isInit : atom ∈ getAxiomInit axioms necessary)
    (inLayer : layers atom = some layer) (changes : model atom = changedValue axioms necessary atom) :
    valuation atom = changedValue axioms necessary atom := by
  generalize size : (flippedBelow hash axioms necessary atom).card = count
  induction count using Nat.strong_induction_on generalizing atom with
  | h count inductionHypothesis =>
    subst size
    obtain ⟨rule, isRule, rfl, changesRule, holds⟩ :=
      (changes_iff isProcessed isModel (necessary_of_layer isProcessed inLayer)).mpr changes
    refine changed_of_rule isProcessed isModel reached fixed isRule changesRule inLayer holds ?_
    intro literal isLiteral sameLayer asks literalChanges
    obtain ⟨source, isSource, inSource⟩ :=
      changing_literal isProcessed.closed isRule changesRule isLiteral
    rw [if_pos isInit] at inSource
    obtain ⟨_, original, isOriginal, sameAtom, sameLiterals⟩ :=
      mem_definition isProcessed.closed isSource
    have isClause : { head := original.effect.atom, body := original.condition } ∈ program axioms :=
      List.mem_map_of_mem isOriginal
    have isHead := isProcessed.closed.derived _ (necessary_of_layer isProcessed sameLayer)
    have inOriginal := (sameLiterals _).mp inSource
    cases sign : literal.negated with
    | true =>
      -- the definition has the atom without negation
      rw [sign, changedValue, Bool.not_true, eq_comm, Bool.not_eq_false', decide_eq_true_eq] at asks
      have le := stratifies.positive _ isClause _ inOriginal (by simp [sign]) isHead
      simp only [Literal.negate_atom, sameAtom] at le
      exact inductionHypothesis _ (flippedBelow_card_lt isProcessed asks
        ⟨source, isSource, _, inSource, rfl⟩) (le.trans within) asks sameLayer literalChanges rfl
    | false =>
      have lt := stratifies.negative _ isClause _ inOriginal (by simp [sign]) isHead
      simp only [Literal.negate_atom, sameAtom] at lt
      exact lower literal.atom (lt.trans_le within) sameLayer literalChanges

/-- Atoms that are initially false: by induction on their derivation. -/
theorem complete_unflipped (isProcessed : Processed hash axioms necessary layers)
    (isModel : LogicProgram.IsModel (program axioms) base model) {layer : ℕ} {valuation : Atom → Bool}
    (reached : Reached axioms necessary layers model layer valuation)
    (fixed : (processed hash axioms necessary layers).applyLayer layer valuation = valuation)
    {level : Atom → ℕ} (stratifies : LogicProgram.Stratifies (program axioms) level) {bound : ℕ}
    (lower : CompleteBelow axioms necessary layers model layer valuation level bound) {atom : Atom}
    (derives : LogicProgram.Derives (program axioms) model atom) (within : level atom ≤ bound)
    (notInit : atom ∉ getAxiomInit axioms necessary) (inLayer : layers atom = some layer) :
    valuation atom = changedValue axioms necessary atom := by
  induction derives with
  | given notHead _ =>
    exact absurd (isProcessed.closed.derived _ (necessary_of_layer isProcessed inLayer)) notHead
  | @clause clause isClause negatives positives inductionHypothesis =>
    obtain ⟨original, isOriginal, rfl⟩ := List.mem_map.mp isClause
    have ofAtom : original ∈ getAxiomsByAtom axioms original.effect.atom :=
      List.mem_filter.mpr ⟨isOriginal, decide_eq_true rfl⟩
    obtain ⟨rule, isKept, subset⟩ := exists_simplified hash ofAtom
    have isNeeded := necessary_of_layer isProcessed inLayer
    simp only [notInit, decide_false] at isNeeded
    obtain ⟨isRule, same, changesRule⟩ := (changing_iff hash isProcessed.closed).mpr
      (by rw [if_neg notInit]; exact ⟨isNeeded, isKept⟩)
    have bodyTrue : bodyHolds model rule.condition = true := by
      rw [bodyHolds_iff]
      intro literal isLiteral
      rw [Literal.holds_iff]
      cases sign : literal.negated with
      | true => exact negatives literal (subset literal isLiteral) sign
      | false =>
        exact (isModel.derives_iff literal.atom).mpr (positives literal (subset literal isLiteral) sign)
    rw [← same]
    refine changed_of_rule isProcessed isModel reached fixed isRule changesRule (same ▸ inLayer)
      bodyTrue ?_
    intro literal isLiteral sameLayer asks literalChanges
    have inOriginal := subset literal isLiteral
    have isHead := isProcessed.closed.derived _ (necessary_of_layer isProcessed sameLayer)
    cases sign : literal.negated with
    | true =>
      have lt := stratifies.negative _ isClause literal inOriginal sign isHead
      exact lower literal.atom (lt.trans_le within) sameLayer literalChanges
    | false =>
      rw [sign, changedValue, Bool.not_false, eq_comm, Bool.not_eq_true', decide_eq_false_iff_not] at asks
      have le := stratifies.positive _ isClause literal inOriginal sign isHead
      exact inductionHypothesis literal inOriginal sign (le.trans within) asks sameLayer

theorem complete_layer (isProcessed : Processed hash axioms necessary layers)
    (isModel : LogicProgram.IsModel (program axioms) base model) {layer : ℕ} {valuation : Atom → Bool}
    (reached : Reached axioms necessary layers model layer valuation)
    (fixed : (processed hash axioms necessary layers).applyLayer layer valuation = valuation)
    {level : Atom → ℕ} (stratifies : LogicProgram.Stratifies (program axioms) level) (bound : ℕ) :
    CompleteBelow axioms necessary layers model layer valuation level bound := by
  induction bound with
  | zero =>
    intro atom impossible
    omega
  | succ bound lower =>
    intro atom within inLayer changes
    by_cases isInit : atom ∈ getAxiomInit axioms necessary
    · exact complete_flipped isProcessed isModel reached fixed stratifies lower
        (Nat.le_of_lt_succ within) isInit inLayer changes
    · have isTrue : model atom = true := by
        rw [changes, changedValue, decide_eq_false isInit]
        rfl
      exact complete_unflipped isProcessed isModel reached fixed stratifies lower
        ((isModel.derives_iff atom).mp isTrue) (Nat.le_of_lt_succ within) isInit inLayer

/-! ## All layers -/

/-- A valuation between two layers. -/
structure Evaluated (axioms : List (PropositionalAxiom Atom)) (necessary : List (Literal Atom))
    (layers : Atom → Option ℕ) (model : Atom → Bool) (layer : ℕ) (valuation : Atom → Bool) : Prop where
  given : ∀ atom, ¬ LogicProgram.IsHead (program axioms) atom → valuation atom = model atom
  below : ∀ atom lower, layers atom = some lower → lower < layer → valuation atom = model atom
  above : ∀ atom, LogicProgram.IsHead (program axioms) atom →
    (∀ other, layers atom = some other → layer ≤ other) →
    valuation atom = !changedValue axioms necessary atom

theorem Evaluated.reached (isProcessed : Processed hash axioms necessary layers) {layer : ℕ}
    {valuation : Atom → Bool}
    (evaluated : Evaluated axioms necessary layers model layer valuation) :
    Reached axioms necessary layers model layer valuation where
  given := evaluated.given
  below := evaluated.below
  sound := by
    intro atom inLayer isChanged
    have isHead := isProcessed.closed.derived _ (necessary_of_layer isProcessed inLayer)
    rw [evaluated.above atom isHead fun other isLayer => by
      rw [inLayer, Option.some.injEq] at isLayer
      omega] at isChanged
    exact absurd isChanged (Bool.not_ne_self _)
  above := fun atom isHead higher =>
    evaluated.above atom isHead fun other isLayer => (higher other isLayer).le

theorem Reached.evaluated (isProcessed : Processed hash axioms necessary layers)
    (isModel : LogicProgram.IsModel (program axioms) base model) {layer : ℕ} {valuation : Atom → Bool}
    (reached : Reached axioms necessary layers model layer valuation)
    (fixed : (processed hash axioms necessary layers).applyLayer layer valuation = valuation)
    {level : Atom → ℕ} (stratifies : LogicProgram.Stratifies (program axioms) level) :
    Evaluated axioms necessary layers model (layer + 1) valuation where
  given := reached.given
  below := by
    intro atom lower inLayer isBelow
    by_cases earlier : lower < layer
    · exact reached.below atom lower inLayer earlier
    · have same : lower = layer := by omega
      subst same
      have complete := complete_layer isProcessed isModel reached fixed stratifies (level atom + 1) atom
        (Nat.lt_succ_self _) inLayer
      have sound := reached.sound atom inLayer
      cases value : valuation atom <;> cases truth : model atom <;>
        cases changed : changedValue axioms necessary atom <;> simp_all
  above := fun atom isHead higher =>
    reached.above atom isHead fun other isLayer => higher other isLayer

theorem Evaluated.step (isProcessed : Processed hash axioms necessary layers)
    (isModel : LogicProgram.IsModel (program axioms) base model) {layer : ℕ} {valuation : Atom → Bool}
    (evaluated : Evaluated axioms necessary layers model layer valuation)
    {level : Atom → ℕ} (stratifies : LogicProgram.Stratifies (program axioms) level) :
    Evaluated axioms necessary layers model (layer + 1)
      (((processed hash axioms necessary layers).applyLayer layer)^[
        (processed hash axioms necessary layers).axioms.length] valuation) := by
  have reached (rounds : ℕ) : Reached axioms necessary layers model layer
      (((processed hash axioms necessary layers).applyLayer layer)^[rounds] valuation) := by
    induction rounds with
    | zero => exact evaluated.reached isProcessed
    | succ rounds inductionHypothesis =>
      rw [Function.iterate_succ_apply']
      exact inductionHypothesis.applyLayer isProcessed isModel
  exact (reached _).evaluated isProcessed isModel (Result.applyLayer_fixed layer valuation) stratifies

theorem evaluated_layers (isProcessed : Processed hash axioms necessary layers)
    (isModel : LogicProgram.IsModel (program axioms) base model)
    {level : Atom → ℕ} (stratifies : LogicProgram.Stratifies (program axioms) level) (count : ℕ) :
    Evaluated axioms necessary layers model count
      ((List.range count).foldl
        (fun valuation layer => ((processed hash axioms necessary layers).applyLayer layer)^[
          (processed hash axioms necessary layers).axioms.length] valuation)
        ((processed hash axioms necessary layers).initialValues axioms base)) := by
  induction count with
  | zero =>
    refine ⟨fun atom notHead => ?_, fun atom lower _ impossible => by omega, fun atom isHead _ => ?_⟩
    · rw [isModel.given atom notHead]
      refine if_neg fun isEffect => notHead (isHead_iff.mpr ?_)
      simpa using isEffect
    · rw [isHead_iff] at isHead
      have isEffect : (axioms.any fun rule => rule.effect.atom = atom) = true := by simpa using isHead
      simp only [List.range_zero, List.foldl_nil]
      unfold Result.initialValues
      rw [if_pos isEffect, changedValue, Bool.not_not]
      rfl
  | succ count inductionHypothesis =>
    rw [List.range_succ, List.foldl_append]
    exact inductionHypothesis.step isProcessed isModel stratifies

/-- Every needed atom has its value in the model. -/
theorem evaluate_eq_model (isProcessed : Processed hash axioms necessary layers)
    (isModel : LogicProgram.IsModel (program axioms) base model)
    {level : Atom → ℕ} (stratifies : LogicProgram.Stratifies (program axioms) level)
    {atom : Atom} {negated : Bool} (isNeeded : { atom := atom, negated := negated } ∈ necessary) :
    (processed hash axioms necessary layers).evaluate axioms base atom = model atom := by
  have evaluated := evaluated_layers isProcessed isModel stratifies
    (processed hash axioms necessary layers).layerCount
  cases isLayer : layers atom with
  | none =>
    rw [model_of_no_layer isProcessed isModel isNeeded isLayer]
    refine evaluated.above atom (isProcessed.closed.derived _ isNeeded) fun other impossible => ?_
    rw [isLayer] at impossible
    cases impossible
  | some layer =>
    refine evaluated.below atom layer isLayer ?_
    by_cases member : atom ∈ layeredAtoms (computeNegativeAxioms hash axioms necessary)
        (getAxiomInit axioms necessary)
    · rw [layeredAtoms, List.mem_dedup] at member
      obtain ⟨rule, isRule, rfl⟩ := List.mem_map.mp member
      have isRule : rule ∈ (processed hash axioms necessary layers).axioms :=
        (List.mem_filter.mp isRule).1
      exact Result.layer_lt_layerCount isRule isLayer
    · rw [isProcessed.layered.isNone atom member] at isLayer
      cases isLayer

end Layer

end CutPlan.Translate.AxiomRules
