import CutPlan.Translate.EffectSplitting
import Mathlib.Algebra.Order.BigOperators.Group.List
import Mathlib.Algebra.Order.Group.Nat

/-! # How often numeric effects fire

The numeric updates of an action as PDDL has them, and as the instances of its normalized and split effects have them.
Splitting counts the ways in which a condition holds, so an update is applied once where there is one way only.
-/

namespace CutPlan.Translate.Pddl

/-! ## Declared variables -/

namespace Condition

variable {scope outer : List String}

theorem Declared.mono {condition : Condition} (declared : condition.Declared scope) (subset : scope ⊆ outer) :
    condition.Declared outer := by
  induction condition using Condition.induct generalizing scope outer with
  | truth => trivial
  | falsity => trivial
  | test kind args => exact List.Subset.trans declared subset
  | conjunction parts inductionHypothesis =>
    rw [Declared, Naming.declaredEach_iff] at declared ⊢
    exact fun part isPart => inductionHypothesis part isPart (declared part isPart) subset
  | disjunction parts inductionHypothesis =>
    rw [Declared, Naming.declaredEach_iff] at declared ⊢
    exact fun part isPart => inductionHypothesis part isPart (declared part isPart) subset
  | existential parameters part inductionHypothesis =>
    exact inductionHypothesis declared (List.append_subset.mpr
      ⟨List.subset_append_left _ _, List.Subset.trans subset (List.subset_append_right _ _)⟩)

theorem declared_conjunction {parts : List Condition} :
    (conjunction parts).Declared scope ↔ ∀ part ∈ parts, part.Declared scope := by
  rw [Declared, Naming.declaredEach_iff]

theorem declared_disjunction {parts : List Condition} :
    (disjunction parts).Declared scope ↔ ∀ part ∈ parts, part.Declared scope := by
  rw [Declared, Naming.declaredEach_iff]

theorem declared_simplifiedConjunction {parts : List Condition} (declared : ∀ part ∈ parts, part.Declared scope) :
    (simplifiedConjunction parts).Declared scope := by
  have conjuncts : ∀ part ∈ parts.flatMap conjuncts, part.Declared scope := by
    intro part isPart
    obtain ⟨outer, isOuter, isInner⟩ := List.mem_flatMap.mp isPart
    have ofOuter := declared outer isOuter
    cases outer with
    | conjunction inner => exact declared_conjunction.mp ofOuter part isInner
    | truth => simp [Condition.conjuncts] at isInner
    | falsity | test _ _ | disjunction _ | existential _ _ =>
      rw [List.mem_singleton.mp isInner]
      exact ofOuter
  obtain ⟨_, same⟩ | ⟨_, ⟨_, same⟩ | ⟨part, isPart, same⟩ | ⟨_, same⟩⟩ := simplifiedConjunction_cases parts
  · simp [same, Declared]
  · simp [same, Declared]
  · rw [same]
    exact conjuncts part (by simp [isPart])
  · rw [same]
    exact declared_conjunction.mpr conjuncts

theorem declared_simplifiedDisjunction {parts : List Condition} (declared : ∀ part ∈ parts, part.Declared scope) :
    (simplifiedDisjunction parts).Declared scope := by
  have disjuncts : ∀ part ∈ parts.flatMap disjuncts, part.Declared scope := by
    intro part isPart
    obtain ⟨outer, isOuter, isInner⟩ := List.mem_flatMap.mp isPart
    have ofOuter := declared outer isOuter
    cases outer with
    | disjunction inner => exact declared_disjunction.mp ofOuter part isInner
    | falsity => simp [Condition.disjuncts] at isInner
    | truth | test _ _ | conjunction _ | existential _ _ =>
      rw [List.mem_singleton.mp isInner]
      exact ofOuter
  obtain ⟨_, same⟩ | ⟨_, ⟨_, same⟩ | ⟨part, isPart, same⟩ | ⟨_, same⟩⟩ := simplifiedDisjunction_cases parts
  · simp [same, Declared]
  · simp [same, Declared]
  · rw [same]
    exact disjuncts part (by simp [isPart])
  · rw [same]
    exact declared_disjunction.mpr disjuncts

theorem declared_simplified {condition : Condition} (declared : condition.Declared scope) :
    condition.simplified.Declared scope := by
  induction condition using Condition.induct generalizing scope with
  | truth => trivial
  | falsity => trivial
  | test kind args => exact declared
  | conjunction parts inductionHypothesis =>
    rw [declared_conjunction] at declared
    rw [simplified, simplifiedEach_eq]
    exact declared_simplifiedConjunction (List.forall_mem_map.mpr fun part isPart =>
      inductionHypothesis part isPart (declared part isPart))
  | disjunction parts inductionHypothesis =>
    rw [declared_disjunction] at declared
    rw [simplified, simplifiedEach_eq]
    exact declared_simplifiedDisjunction (List.forall_mem_map.mpr fun part isPart =>
      inductionHypothesis part isPart (declared part isPart))
  | existential parameters part inductionHypothesis =>
    have inner := inductionHypothesis declared
    rw [simplified]
    cases isPart : part.simplified with
    | truth => trivial
    | falsity => trivial
    | test _ _ | conjunction _ | disjunction _ | existential _ _ =>
      rw [isPart] at inner
      exact inner

end Condition

/-! ## Holding in some way -/

namespace Condition

variable {world : World}

theorem holdsEach_eq (mapping : Mapping) (parts : List Condition) :
    holdsEach world mapping parts = parts.map (Condition.holds world mapping) := by
  induction parts with
  | nil => rfl
  | cons part parts inductionHypothesis => rw [holdsEach, inductionHypothesis, List.map_cons]

/-- A condition that holds does so in some way after it has been simplified. -/
theorem one_le_ways_simplified {condition : Condition} {mapping : Mapping}
    (holds : condition.holds world mapping = true) : 1 ≤ condition.simplified.ways world mapping := by
  induction condition using Condition.induct generalizing mapping with
  | truth => exact le_rfl
  | falsity => cases holds
  | test kind args =>
    rw [Condition.holds] at holds
    simp [simplified, Condition.ways, holds]
  | conjunction parts inductionHypothesis =>
    rw [Condition.holds, holdsEach_eq, List.all_map, List.all_eq_true] at holds
    rw [simplified, simplifiedEach_eq, ways_simplifiedConjunction, List.map_map]
    apply Nat.one_le_iff_ne_zero.mpr
    apply List.prod_ne_zero
    intro none
    obtain ⟨part, isPart, noWay⟩ := List.mem_map.mp none
    have some := inductionHypothesis part isPart (holds part isPart)
    simp only [Function.comp_apply] at noWay
    omega
  | disjunction parts inductionHypothesis =>
    rw [Condition.holds, holdsEach_eq, List.any_map, List.any_eq_true] at holds
    obtain ⟨part, isPart, partHolds⟩ := holds
    have some := inductionHypothesis part isPart partHolds
    rw [simplified, simplifiedEach_eq]
    by_cases noTruth : Condition.truth ∉ parts.map simplified
    · rw [ways_simplifiedDisjunction noTruth, List.map_map]
      exact some.trans (List.le_sum_of_mem (List.mem_map.mpr ⟨part, isPart, rfl⟩))
    · obtain ⟨_, same⟩ | ⟨absent, _⟩ := simplifiedDisjunction_cases (parts.map simplified)
      · rw [same, ways_truth]
      · exact absurd absent noTruth
  | existential parameters part inductionHypothesis =>
    rw [Condition.holds, List.any_eq_true] at holds
    obtain ⟨witness, isWitness, partHolds⟩ := holds
    have some := inductionHypothesis partHolds
    have inSum : 1 ≤ (Condition.existential parameters part.simplified).ways world mapping := by
      rw [ways_existential]
      exact some.trans (List.le_sum_of_mem (List.mem_map.mpr ⟨witness, isWitness, rfl⟩))
    rw [simplified]
    cases isPart : part.simplified with
    | truth => exact le_rfl
    | falsity => simp [isPart] at some
    | test _ _ | conjunction _ | disjunction _ | existential _ _ =>
      rw [isPart] at inSum
      exact inSum

/-! ## Free variables -/

mutual
def freeNames : Condition → List String
  | .truth | .falsity => []
  | .test _ args => argumentNames args
  | .conjunction parts | .disjunction parts => freeNamesOfEach parts
  | .existential parameters part => part.freeNames.filter fun name => name ∉ parameters.map TypedObject.name

def freeNamesOfEach : List Condition → List String
  | [] => []
  | part :: parts => part.freeNames ++ freeNamesOfEach parts
end

theorem mem_freeNamesOfEach {parts : List Condition} {part : Condition} (isPart : part ∈ parts) :
    part.freeNames ⊆ freeNamesOfEach parts := by
  induction parts with
  | nil => cases isPart
  | cons first parts inductionHypothesis =>
    rw [freeNamesOfEach]
    cases isPart with
    | head => exact List.subset_append_left _ _
    | tail _ isPart => exact List.Subset.trans (inductionHypothesis isPart) (List.subset_append_right _ _)

/-- A parameter has the same object whatever the mapping is. -/
theorem assign_same {parameters : List TypedObject} {tuple : List String} {mapping other : Mapping} {name : String}
    (same : name ∉ parameters.map TypedObject.name → mapping name = other name)
    (long : tuple.length = parameters.length) :
    assign mapping parameters tuple name = assign other parameters tuple name := by
  induction parameters generalizing tuple mapping other with
  | nil => exact same (by simp)
  | cons parameter parameters inductionHypothesis =>
    cases tuple with
    | nil => cases long
    | cons object tuple =>
      rw [assign, assign]
      apply inductionHypothesis
      · intro notLater
        by_cases isFirst : name = parameter.name
        · rw [isFirst, Function.update_self, Function.update_self]
        · rw [Function.update_of_ne isFirst, Function.update_of_ne isFirst]
          exact same (by simp [isFirst, notLater])
      · simpa using long

theorem ways_congr_free {condition : Condition} {mapping other : Mapping}
    (agree : ∀ name ∈ condition.freeNames, mapping name = other name) :
    condition.ways world mapping = condition.ways world other := by
  induction condition using Condition.induct generalizing mapping other with
  | truth => rfl
  | falsity => rfl
  | test kind args =>
    rw [Condition.ways, Condition.ways, argument_value_congr agree]
  | conjunction parts inductionHypothesis =>
    rw [ways_conjunction, ways_conjunction, List.map_congr_left fun part isPart =>
      inductionHypothesis part isPart fun name isName => agree name (mem_freeNamesOfEach isPart isName)]
  | disjunction parts inductionHypothesis =>
    rw [ways_disjunction, ways_disjunction, List.map_congr_left fun part isPart =>
      inductionHypothesis part isPart fun name isName => agree name (mem_freeNamesOfEach isPart isName)]
  | existential parameters part inductionHypothesis =>
    rw [ways_existential, ways_existential, assignments, assignments, List.map_map, List.map_map]
    apply congrArg List.sum
    apply List.map_congr_left
    intro tuple isTuple
    apply inductionHypothesis
    intro name isName
    apply assign_same _ (by simpa using length_of_mem isTuple)
    intro notParameter
    exact agree name (List.mem_filter.mpr ⟨isName, by simpa using notParameter⟩)

end Condition

/-! ## Effects of an action -/

mutual
/-- Every variable is a parameter of the action or quantified around it. -/
def EffectTree.Declared (scope : List String) : EffectTree → Prop
  | .conjunctive effects => effectsDeclared scope effects
  | .universal parameters effect => effect.Declared (parameters.map TypedObject.name ++ scope)
  | .conditional condition effect => condition.Declared scope ∧ effect.Declared scope
  | .primitive effect => effect.names ⊆ scope

def effectsDeclared (scope : List String) : List EffectTree → Prop
  | [] => True
  | effect :: effects => effect.Declared scope ∧ effectsDeclared scope effects
end

mutual
/-- No parameter of a `forall` has the name of a variable that is free in a condition around it. -/
def EffectTree.NoCapture (free : List String) : EffectTree → Prop
  | .conjunctive effects => noneCaptured free effects
  | .universal parameters effect => (parameters.map TypedObject.name).Disjoint free ∧ effect.NoCapture free
  | .conditional condition effect => effect.NoCapture (condition.simplified.freeNames ++ free)
  | .primitive _ => True

def noneCaptured (free : List String) : List EffectTree → Prop
  | [] => True
  | effect :: effects => effect.NoCapture free ∧ noneCaptured free effects
end

mutual
/-- The numeric updates of an effect: a condition is read where it stands. -/
def EffectTree.fires (world : World) (mapping : Mapping) : EffectTree → List GroundAssignment
  | .conjunctive effects => allFire world mapping effects
  | .universal parameters effect =>
    (assignments world.objectsByType parameters mapping).flatMap fun mapping => effect.fires world mapping
  | .conditional condition effect => if condition.holds world mapping then effect.fires world mapping else []
  | .primitive effect => effect.ground mapping

def allFire (world : World) (mapping : Mapping) : List EffectTree → List GroundAssignment
  | [] => []
  | effect :: effects => effect.fires world mapping ++ allFire world mapping effects
end

mutual
/-- The updates with whether the conditions around them hold, and in how many ways. -/
def EffectTree.firings (world : World) (holds : Bool) (ways : ℕ) (mapping : Mapping) :
    EffectTree → List (GroundAssignment × Bool × ℕ)
  | .conjunctive effects => allFirings world holds ways mapping effects
  | .universal parameters effect =>
    (assignments world.objectsByType parameters mapping).flatMap fun mapping => effect.firings world holds ways mapping
  | .conditional condition effect =>
    effect.firings world (holds && condition.holds world mapping) (ways * condition.simplified.ways world mapping) mapping
  | .primitive effect => (effect.ground mapping).map fun update => (update, holds, ways)

def allFirings (world : World) (holds : Bool) (ways : ℕ) (mapping : Mapping) :
    List EffectTree → List (GroundAssignment × Bool × ℕ)
  | [] => []
  | effect :: effects => effect.firings world holds ways mapping ++ allFirings world holds ways mapping effects
end

namespace EffectTree

variable {world : World} {scope outer free : List String}

theorem effectsDeclared_iff {effects : List EffectTree} :
    effectsDeclared scope effects ↔ ∀ effect ∈ effects, effect.Declared scope := by
  induction effects with
  | nil => simp [effectsDeclared]
  | cons effect effects inductionHypothesis => rw [effectsDeclared, inductionHypothesis, List.forall_mem_cons]

theorem noneCaptured_iff {effects : List EffectTree} :
    noneCaptured free effects ↔ ∀ effect ∈ effects, effect.NoCapture free := by
  induction effects with
  | nil => simp [noneCaptured]
  | cons effect effects inductionHypothesis => rw [noneCaptured, inductionHypothesis, List.forall_mem_cons]

theorem allFire_eq (mapping : Mapping) (effects : List EffectTree) :
    allFire world mapping effects = effects.flatMap (EffectTree.fires world mapping) := by
  induction effects with
  | nil => rfl
  | cons effect effects inductionHypothesis => rw [allFire, inductionHypothesis, List.flatMap_cons]

theorem allFirings_eq (holds : Bool) (ways : ℕ) (mapping : Mapping) (effects : List EffectTree) :
    allFirings world holds ways mapping effects = effects.flatMap (EffectTree.firings world holds ways mapping) := by
  induction effects with
  | nil => rfl
  | cons effect effects inductionHypothesis => rw [allFirings, inductionHypothesis, List.flatMap_cons]

/-! ## Parsing keeps the variables declared -/

theorem Declared.mono {effect : EffectTree} (declared : effect.Declared scope) (subset : scope ⊆ outer) :
    effect.Declared outer := by
  induction effect using EffectTree.induct generalizing scope outer with
  | conjunctive effects inductionHypothesis =>
    rw [Declared, effectsDeclared_iff] at declared ⊢
    exact fun effect isEffect => inductionHypothesis effect isEffect (declared effect isEffect) subset
  | universal parameters effect inductionHypothesis =>
    exact inductionHypothesis declared (List.append_subset.mpr
      ⟨List.subset_append_left _ _, List.Subset.trans subset (List.subset_append_right _ _)⟩)
  | conditional condition effect inductionHypothesis =>
    exact ⟨declared.1.mono subset, inductionHypothesis declared.2 subset⟩
  | primitive effect => exact List.Subset.trans declared subset

theorem declared_conjunctiveEffect {effects : List EffectTree} (declared : ∀ effect ∈ effects, effect.Declared scope) :
    (conjunctiveEffect effects).Declared scope := by
  rw [conjunctiveEffect, Declared, effectsDeclared_iff]
  intro effect isEffect
  obtain ⟨source, isSource, isFlat⟩ := List.mem_flatMap.mp isEffect
  have ofSource := declared source isSource
  cases source with
  | conjunctive inner =>
    rw [Declared, effectsDeclared_iff] at ofSource
    exact ofSource effect isFlat
  | universal _ _ | conditional _ _ | primitive _ =>
    rw [List.mem_singleton.mp isFlat]
    exact ofSource

theorem declared_universalEffect {parameters : List TypedObject} {effect : EffectTree}
    (declared : effect.Declared (parameters.map TypedObject.name ++ scope)) :
    (universalEffect parameters effect).Declared scope := by
  cases effect with
  | universal inner effect =>
    have nested : effect.Declared (inner.map TypedObject.name ++ (parameters.map TypedObject.name ++ scope)) := declared
    refine nested.mono fun name isName => ?_
    simp only [List.map_append, List.mem_append] at isName ⊢
    tauto
  | conjunctive _ | conditional _ _ | primitive _ => exact declared

theorem declared_conditionalEffect {condition : Condition} {effect : EffectTree}
    (isDeclared : condition.Declared scope) (declared : effect.Declared scope) :
    (conditionalEffect condition effect).Declared scope := by
  cases effect with
  | conditional inner effect =>
    refine ⟨Condition.declared_conjunction.mpr ?_, declared.2⟩
    simp [isDeclared, declared.1]
  | conjunctive _ | universal _ _ | primitive _ => exact ⟨isDeclared, declared⟩

theorem declared_parseEffect {effect : EffectTree} (declared : effect.Declared scope) :
    effect.parseEffect.Declared scope := by
  induction effect using EffectTree.induct generalizing scope with
  | conjunctive effects inductionHypothesis =>
    rw [Declared, effectsDeclared_iff] at declared
    rw [parseEffect, parseEach_eq]
    exact declared_conjunctiveEffect (List.forall_mem_map.mpr fun effect isEffect =>
      inductionHypothesis effect isEffect (declared effect isEffect))
  | universal parameters effect inductionHypothesis => exact declared_universalEffect (inductionHypothesis declared)
  | conditional condition effect inductionHypothesis =>
    exact declared_conditionalEffect declared.1 (inductionHypothesis declared.2)
  | primitive effect => exact declared

theorem declared_normalizeUniversal {parameters : List TypedObject} {effect : EffectTree}
    (declared : effect.Declared (parameters.map TypedObject.name ++ scope)) :
    (normalizeUniversal parameters effect).Declared scope := by
  cases effect with
  | conjunctive effects =>
    rw [Declared, effectsDeclared_iff] at declared
    exact declared_conjunctiveEffect (List.forall_mem_map.mpr fun effect isEffect =>
      declared_universalEffect (declared effect isEffect))
  | universal _ _ | conditional _ _ | primitive _ => exact declared_universalEffect declared

theorem declared_normalizeConditional {condition : Condition} {effect normalized : EffectTree}
    (isDeclared : condition.Declared scope) (declared : effect.Declared scope)
    (isNormalized : normalizeConditional condition effect = some normalized) : normalized.Declared scope := by
  cases effect with
  | conjunctive effects =>
    rw [Declared, effectsDeclared_iff] at declared
    rw [normalizeConditional] at isNormalized
    split at isNormalized
    case isTrue =>
      cases isNormalized
      exact declared_conjunctiveEffect (List.forall_mem_map.mpr fun effect isEffect =>
        declared_conditionalEffect isDeclared (declared effect isEffect))
    case isFalse => cases isNormalized
  | universal parameters effect =>
    cases isNormalized
    apply declared_universalEffect
    exact declared_conditionalEffect (isDeclared.mono (List.subset_append_right _ _)) declared
  | conditional _ _ | primitive _ =>
    cases isNormalized
    exact declared_conditionalEffect isDeclared declared

theorem declared_normalize {effect normalized : EffectTree} (declared : effect.Declared scope)
    (isNormalized : effect.normalize = some normalized) : normalized.Declared scope := by
  induction effect using EffectTree.induct generalizing scope normalized with
  | primitive effect =>
    cases isNormalized
    exact declared
  | conjunctive effects inductionHypothesis =>
    rw [Declared, effectsDeclared_iff] at declared
    rw [normalize, Option.map_eq_some_iff] at isNormalized
    obtain ⟨parts, areNormalized, rfl⟩ := isNormalized
    apply declared_conjunctiveEffect
    induction effects generalizing parts with
    | nil =>
      cases areNormalized
      simp
    | cons effect effects ofRest =>
      rw [List.forall_mem_cons] at declared inductionHypothesis
      rw [normalizeEach] at areNormalized
      split at areNormalized
      case h_1 first rest isFirst isRest =>
        cases areNormalized
        exact List.forall_mem_cons.mpr
          ⟨inductionHypothesis.1 declared.1 isFirst, ofRest inductionHypothesis.2 declared.2 rest isRest⟩
      case h_2 => cases areNormalized
  | universal parameters effect inductionHypothesis =>
    rw [normalize, Option.map_eq_some_iff] at isNormalized
    obtain ⟨inner, isInner, rfl⟩ := isNormalized
    exact declared_normalizeUniversal (inductionHypothesis declared isInner)
  | conditional condition effect inductionHypothesis =>
    rw [normalize, Option.bind_eq_some_iff] at isNormalized
    obtain ⟨inner, isInner, isNormalized⟩ := isNormalized
    exact declared_normalizeConditional declared.1 (inductionHypothesis declared.2 isInner) isNormalized

/-- An effect of the list has declared variables and a simplified condition. -/
def IsProper (scope : List String) (effect : Effect) : Prop := effect.Declared scope ∧ effect.condition.Normal

theorem proper_toEffect {tree : EffectTree} {effect : Effect} (declared : tree.Declared scope)
    (isEffect : tree.toEffect = some effect) : IsProper scope effect := by
  rw [toEffect.eq_def] at isEffect
  split at isEffect
  case h_1 parameters condition primitive =>
    cases isEffect
    exact ⟨⟨Condition.declared_simplified declared.1, declared.2⟩, Condition.normal_simplified condition⟩
  case h_2 parameters primitive =>
    cases isEffect
    exact ⟨⟨trivial, declared⟩, .inl rfl⟩
  case h_3 condition primitive =>
    cases isEffect
    exact ⟨⟨Condition.declared_simplified declared.1, declared.2⟩, Condition.normal_simplified condition⟩
  case h_4 primitive =>
    cases isEffect
    exact ⟨⟨trivial, declared⟩, .inl rfl⟩
  case h_5 => cases isEffect

theorem proper_addPrimitive {result : List Effect} {effect : Effect} (proper : ∀ other ∈ result, IsProper scope other)
    (isProper : IsProper scope effect) : ∀ other ∈ addPrimitive result effect, IsProper scope other := by
  have appended : ∀ kept : List Effect, kept ⊆ result → ∀ other ∈ kept ++ [effect], IsProper scope other := by
    intro kept subset other isOther
    obtain isKept | isLast := List.mem_append.mp isOther
    · exact proper other (subset isKept)
    · rw [List.mem_singleton.mp isLast]
      exact isProper
  rw [addPrimitive]
  split
  · exact appended result (List.Subset.refl _)
  · dsimp only
    split
    · exact appended result (List.Subset.refl _)
    · split
      · exact proper
      · exact appended _ List.erase_subset

theorem proper_addToEffect {tree : EffectTree} {result added : List Effect} (declared : tree.Declared scope)
    (proper : ∀ effect ∈ result, IsProper scope effect) (isAdded : tree.toEffect.map (addPrimitive result) = some added) :
    ∀ effect ∈ added, IsProper scope effect := by
  obtain ⟨effect, isEffect, rfl⟩ := Option.map_eq_some_iff.mp isAdded
  exact proper_addPrimitive proper (proper_toEffect declared isEffect)

theorem proper_addEffect {tree : EffectTree} {result added : List Effect} (declared : tree.Declared scope)
    (proper : ∀ effect ∈ result, IsProper scope effect) (isAdded : addEffect result tree = some added) :
    ∀ effect ∈ added, IsProper scope effect := by
  induction tree using EffectTree.induct generalizing result added with
  | primitive effect => exact proper_addToEffect declared proper isAdded
  | universal parameters effect _ => exact proper_addToEffect declared proper isAdded
  | conditional condition effect _ => exact proper_addToEffect declared proper isAdded
  | conjunctive effects inductionHypothesis =>
    rw [Declared, effectsDeclared_iff] at declared
    rw [addEffect] at isAdded
    induction effects generalizing result with
    | nil =>
      cases isAdded
      exact proper
    | cons effect effects ofRest =>
      rw [addEach, Option.bind_eq_some_iff] at isAdded
      obtain ⟨middle, isMiddle, isAdded⟩ := isAdded
      rw [List.forall_mem_cons] at declared inductionHypothesis
      have properMiddle := inductionHypothesis.1 declared.1 proper isMiddle
      exact ofRest inductionHypothesis.2 declared.2 properMiddle isAdded

theorem proper_parseEffects {tree : EffectTree} {effects : List Effect} (declared : tree.Declared scope)
    (isParsed : tree.parseEffects = some effects) : ∀ effect ∈ effects, IsProper scope effect := by
  rw [parseEffects, Option.bind_eq_some_iff] at isParsed
  obtain ⟨normalized, isNormalized, isParsed⟩ := isParsed
  split at isParsed
  case isTrue =>
    exact proper_addEffect (declared_normalize (declared_parseEffect declared) isNormalized) (by simp) isParsed
  case isFalse => cases isParsed

/-! ## Updates and their conditions -/

/-- Where no variable is captured, a condition may be read where the update is. -/
theorem updates_eq_firings {tree : EffectTree} {weight : Mapping → ℕ} {mapping : Mapping} (holds : Bool)
    (noCapture : tree.NoCapture free)
    (onFree : ∀ other : Mapping, (∀ name ∈ free, other name = mapping name) → weight other = weight mapping) :
    tree.updates world weight mapping =
      (tree.firings world holds (weight mapping) mapping).map fun firing => (firing.1, firing.2.2) := by
  induction tree using EffectTree.induct generalizing weight mapping holds free with
  | primitive effect => simp [EffectTree.updates, EffectTree.firings]
  | conjunctive effects inductionHypothesis =>
    rw [NoCapture, noneCaptured_iff] at noCapture
    rw [EffectTree.updates, updatesOfEach_eq, EffectTree.firings, allFirings_eq, List.map_flatMap]
    exact List.flatMap_congr fun effect isEffect =>
      inductionHypothesis effect isEffect holds (noCapture effect isEffect) onFree
  | universal parameters effect inductionHypothesis =>
    rw [EffectTree.updates, EffectTree.firings, List.map_flatMap]
    apply List.flatMap_congr
    intro inner isInner
    have agree := Condition.agree_of_mem_assignments isInner noCapture.1
    have same : weight inner = weight mapping := onFree inner agree
    rw [← same]
    apply inductionHypothesis holds noCapture.2
    intro other otherAgree
    rw [same, onFree other fun name isName => (otherAgree name isName).trans (agree name isName)]
  | conditional condition effect inductionHypothesis =>
    rw [EffectTree.updates, EffectTree.firings]
    apply inductionHypothesis _ noCapture
    intro other agree
    rw [onFree other fun name isName => agree name (List.mem_append_right _ isName),
      Condition.ways_congr_free fun name isName => agree name (List.mem_append_left _ isName)]

theorem fires_eq_firings {tree : EffectTree} {mapping : Mapping} (holds : Bool) (ways : ℕ) :
    (if holds then tree.fires world mapping else []) =
      ((tree.firings world holds ways mapping).filter fun firing => firing.2.1).map fun firing => firing.1 := by
  induction tree using EffectTree.induct generalizing mapping holds ways with
  | primitive effect =>
    cases effect <;> cases holds <;> simp [EffectTree.fires, EffectTree.firings, PrimitiveEffect.ground]
  | conjunctive effects inductionHypothesis =>
    rw [EffectTree.fires, allFire_eq, EffectTree.firings, allFirings_eq, List.filter_flatMap, List.map_flatMap]
    rw [← List.flatMap_congr fun effect isEffect => inductionHypothesis effect isEffect holds ways]
    cases holds <;> simp
  | universal parameters effect inductionHypothesis =>
    rw [EffectTree.fires, EffectTree.firings, List.filter_flatMap, List.map_flatMap]
    rw [← List.flatMap_congr fun mapping _ => inductionHypothesis holds ways]
    cases holds <;> simp
  | conditional condition effect inductionHypothesis =>
    rw [EffectTree.fires, EffectTree.firings, ← inductionHypothesis]
    cases holds <;> simp

/-- A condition that holds has a way. -/
theorem one_le_of_firing {tree : EffectTree} {mapping : Mapping} {holds : Bool} {ways : ℕ}
    (some : holds = true → 1 ≤ ways) :
    ∀ firing ∈ tree.firings world holds ways mapping, firing.2.1 = true → 1 ≤ firing.2.2 := by
  induction tree using EffectTree.induct generalizing mapping holds ways with
  | primitive effect =>
    rw [EffectTree.firings]
    exact List.forall_mem_map.mpr fun update _ => some
  | conjunctive effects inductionHypothesis =>
    rw [EffectTree.firings, allFirings_eq]
    intro firing isFiring
    obtain ⟨effect, isEffect, isFiring⟩ := List.mem_flatMap.mp isFiring
    exact inductionHypothesis effect isEffect some firing isFiring
  | universal parameters effect inductionHypothesis =>
    rw [EffectTree.firings]
    intro firing isFiring
    obtain ⟨inner, _, isFiring⟩ := List.mem_flatMap.mp isFiring
    exact inductionHypothesis some firing isFiring
  | conditional condition effect inductionHypothesis =>
    apply inductionHypothesis
    intro both
    rw [Bool.and_eq_true] at both
    exact Nat.mul_pos (some both.1) (Condition.one_le_ways_simplified both.2)

end EffectTree

/-! ## Every update once -/

theorem length_expand (updates : List (GroundAssignment × ℕ)) :
    (expand updates).length = (updates.map fun update => update.2).sum := by
  simp [expand, List.length_flatMap]

/-- As every condition that holds has a way, the numbers agree only if each of them does. -/
theorem expand_perm_iff {firings : List (GroundAssignment × Bool × ℕ)}
    (some : ∀ firing ∈ firings, firing.2.1 = true → 1 ≤ firing.2.2) :
    (expand (firings.map fun firing => (firing.1, firing.2.2))).Perm
        ((firings.filter fun firing => firing.2.1).map fun firing => firing.1) ↔
      ∀ firing ∈ firings, firing.2.2 = firing.2.1.toNat := by
  constructor
  · intro perm
    have lengths := perm.length_eq
    rw [length_expand, List.map_map, List.length_map] at lengths
    have counted : ∀ firings : List (GroundAssignment × Bool × ℕ),
        (∀ firing ∈ firings, firing.2.1 = true → 1 ≤ firing.2.2) →
        (firings.filter fun firing => firing.2.1).length ≤ (firings.map fun firing => firing.2.2).sum ∧
          ((firings.map fun firing => firing.2.2).sum = (firings.filter fun firing => firing.2.1).length →
            ∀ firing ∈ firings, firing.2.2 = firing.2.1.toNat) := by
      intro firings some
      induction firings with
      | nil => simp
      | cons firing firings inductionHypothesis =>
        rw [List.forall_mem_cons] at some
        obtain ⟨atMost, onlyIf⟩ := inductionHypothesis some.2
        have first := some.1
        cases holds : firing.2.1 with
        | false =>
          simp only [List.filter_cons, holds, List.map_cons, List.sum_cons, List.forall_mem_cons]
          refine ⟨by simp; omega, fun same => ⟨?_, onlyIf ?_⟩⟩
          · simp at same ⊢
            omega
          · simp at same
            omega
        | true =>
          have positive := first holds
          simp only [List.filter_cons, holds, List.map_cons, List.sum_cons, List.forall_mem_cons, if_true,
            List.length_cons]
          refine ⟨by omega, fun same => ⟨?_, onlyIf ?_⟩⟩
          · simp
            omega
          · omega
    exact (counted firings some).2 lengths
  · intro once
    apply List.Perm.of_eq
    clear some
    induction firings with
    | nil => rfl
    | cons firing firings inductionHypothesis =>
      rw [List.forall_mem_cons] at once
      have rest := inductionHypothesis once.2
      rw [List.map_cons, expand, List.flatMap_cons, ← expand, rest, once.1]
      cases holds : firing.2.1 <;> simp [holds]

/-- What the parser reads of an action. -/
structure ActionEffect where
  parameters : List TypedObject
  precondition : Condition
  tree : EffectTree
  effects : List Effect
  nodup : (parameters.map TypedObject.name).Nodup
  preconditionDeclared : precondition.Declared (parameters.map TypedObject.name)
  declared : tree.Declared (parameters.map TypedObject.name)
  isParsed : tree.parseEffects = some effects

namespace ActionEffect

variable (action : ActionEffect)

/-- The names known when the effects get unique variables. -/
def typeMap : List TypedObject := (action.precondition.uniquify ⟨action.parameters, id⟩).2

/-- The numeric effects of the normalized action for the objects of its parameters. -/
def instances (task : GroundTask) (mapping : Mapping) : Except Raised (List (List GroundTest × GroundAssignment)) :=
  instantiateEffects task mapping action.typeMap action.effects

/-- For every update and instance of its own parameters the simplified conditions have one way to hold together if
the conditions hold, and none otherwise.  A way chooses a disjunct for every disjunction and objects for every
existential quantifier. -/
def OneWay (world : World) (mapping : Mapping) : Prop :=
  ∀ firing ∈ action.tree.firings world true 1 mapping, firing.2.2 = firing.2.1.toNat

/-- The instances apply the same updates as the effect of the action, each as often. -/
theorem firesOnce_iff (noCapture : action.tree.NoCapture []) (task : GroundTask) (mapping : Mapping) :
    ∃ instances, action.instances task mapping = .ok instances ∧ ∀ state : State task,
      (state.updates instances).Perm (action.tree.fires state.world mapping) ↔ action.OneWay state.world mapping := by
  have covers : Naming.Covers ⟨action.parameters, id⟩ (action.parameters.map TypedObject.name) :=
    ⟨fun _ _ => rfl, fun name isName => isName⟩
  have precondition := Naming.uniquified covers action.preconditionDeclared
  have known : action.parameters.map TypedObject.name ⊆ action.typeMap.map TypedObject.name := by
    rw [typeMap, precondition.typeMap]
    exact List.subset_append_left _ _
  have proper := EffectTree.proper_parseEffects action.declared action.isParsed
  obtain ⟨ready, sameUpdates⟩ := uniquifyEffects_spec (precondition.nodup action.nodup) known
    (fun effect isEffect => (proper effect isEffect).1) fun effect isEffect => (proper effect isEffect).2
  obtain ⟨instances, areInstances, updates⟩ := @instantiateEffects_spec task action.typeMap action.effects ready mapping
  refine ⟨instances, areInstances, fun state => ?_⟩
  -- the updates of the instances, and those of the effect with their conditions
  have counted : (state.updates instances).Perm (expand ((action.tree.firings state.world true 1 mapping).map
      fun firing => (firing.1, firing.2.2))) := by
    have parsed := expand_perm (@EffectTree.updates_parseEffects state.world mapping _ _ action.isParsed)
    rw [EffectTree.updates_eq_firings true noCapture (by simp)] at parsed
    exact (updates state).trans (by rw [typeMap, sameUpdates]; exact parsed)
  have fired : action.tree.fires state.world mapping =
      ((action.tree.firings state.world true 1 mapping).filter fun firing => firing.2.1).map fun firing => firing.1 := by
    simpa using @EffectTree.fires_eq_firings state.world action.tree mapping true 1
  rw [fired, OneWay, ← expand_perm_iff (EffectTree.one_le_of_firing fun _ => le_rfl)]
  exact ⟨counted.symm.trans, counted.trans⟩

/-! ### A condition with two ways -/

/-- `(when (or (raining) (snowing)) (increase (delay) 1))`, with the constant as a derived function. -/
def delay : ActionEffect where
  parameters := []
  precondition := .conjunction []
  tree := .conditional (.disjunction [.test (.literal false "raining") [], .test (.literal false "snowing") []])
    (.primitive (.assignment ⟨.increase, "delay", [], "derived!1", []⟩))
  effects := [⟨[], .disjunction [.test (.literal false "raining") [], .test (.literal false "snowing") []],
    .assignment ⟨.increase, "delay", [], "derived!1", []⟩⟩]
  nodup := List.nodup_nil
  preconditionDeclared := trivial
  declared := by simp [EffectTree.Declared, Condition.Declared, DeclaredEach, argumentNames, PrimitiveEffect.names]
  isParsed := by rfl

def weather : GroundTask := ⟨fun _ => [], fun _ _ => true, fun _ _ => false⟩

/-- Whether it rains and whether it snows. -/
def weatherState (raining snowing : Bool) : State weather where
  holdsTest
    | .literal negated predicate, _ => (if predicate = "raining" then raining else snowing) != negated
    | .comparison _ _, _ => false
  static := fun _ _ _ notFluent => by simp [weather] at notFluent

theorem firesOnce_iff_delay : ∃ instances, delay.instances weather id = .ok instances ∧
    ((weatherState true false).updates instances).Perm (delay.tree.fires (weatherState true false).world id) := by
  obtain ⟨instances, areInstances, once⟩ := firesOnce_iff delay trivial weather id
  refine ⟨instances, areInstances, (once (weatherState true false)).mpr ?_⟩
  unfold OneWay
  decide +kernel

/-- Where it rains and snows, the delay increases twice. -/
theorem delay_firesTwice : ∃ instances, delay.instances weather id = .ok instances ∧
    ¬ ((weatherState true true).updates instances).Perm (delay.tree.fires (weatherState true true).world id) := by
  refine ⟨[([(.literal false "raining", [])], ⟨.increase, "delay", [], "derived!1", []⟩),
    ([(.literal false "snowing", [])], ⟨.increase, "delay", [], "derived!1", []⟩)], rfl, ?_⟩
  decide +kernel

end ActionEffect

end CutPlan.Translate.Pddl
