import CutPlan.Translate.ConditionSplitting
import CutPlan.Sas.Arithmetic

/-! # Normalization of effects

The effects of an action as PDDL writes them, with nested conjunctions, `forall` and `when`, and the list of effects
that the parser makes of them.  The parser asserts that no `forall` stands in a conjunction under a `when`, and that
the cost increases once only.
-/

namespace CutPlan.Translate.Pddl

open CutPlan.Sas

/-- A numeric update.  The expression is named apart from its arguments. -/
structure Assignment where
  symbol : FOperator
  fluent : String
  fluentArgs : List Argument
  expression : String
  expressionArgs : List Argument
  deriving DecidableEq, Repr

inductive PrimitiveEffect where
  | literal (negated : Bool) (predicate : String) (args : List Argument)
  | assignment (assignment : Assignment)
  deriving DecidableEq, Repr

inductive EffectTree where
  | conjunctive (effects : List EffectTree)
  | universal (parameters : List TypedObject) (effect : EffectTree)
  | conditional (condition : Condition) (effect : EffectTree)
  | primitive (effect : PrimitiveEffect)
  deriving Repr

/-- An effect of an action after parsing. -/
structure Effect where
  parameters : List TypedObject
  condition : Condition
  peffect : PrimitiveEffect
  deriving DecidableEq, Repr

theorem EffectTree.induct {property : EffectTree → Prop}
    (conjunctive : ∀ effects, (∀ effect ∈ effects, property effect) → property (.conjunctive effects))
    (universal : ∀ parameters effect, property effect → property (.universal parameters effect))
    (conditional : ∀ condition effect, property effect → property (.conditional condition effect))
    (primitive : ∀ effect, property (.primitive effect)) : ∀ tree, property tree := by
  intro tree
  refine EffectTree.rec conjunctive universal conditional primitive ?_ ?_ tree
    (motive_2 := fun effects => ∀ effect ∈ effects, property effect)
  · simp
  · intro head tail ofHead ofTail
    exact List.forall_mem_cons.mpr ⟨ofHead, ofTail⟩

namespace EffectTree

/-! ## Constructors -/

def flattened : EffectTree → List EffectTree
  | .conjunctive effects => effects
  | effect => [effect]

def conjunctiveEffect (effects : List EffectTree) : EffectTree := .conjunctive (effects.flatMap flattened)

def universalEffect (parameters : List TypedObject) : EffectTree → EffectTree
  | .universal inner effect => .universal (parameters ++ inner) effect
  | effect => .universal parameters effect

def conditionalEffect (condition : Condition) : EffectTree → EffectTree
  | .conditional inner effect => .conditional (.conjunction [condition, inner]) effect
  | effect => .conditional condition effect

mutual
def parseEffect : EffectTree → EffectTree
  | .conjunctive effects => conjunctiveEffect (parseEach effects)
  | .universal parameters effect => universalEffect parameters (parseEffect effect)
  | .conditional condition effect => conditionalEffect condition (parseEffect effect)
  | .primitive effect => .primitive effect

def parseEach : List EffectTree → List EffectTree
  | [] => []
  | effect :: effects => parseEffect effect :: parseEach effects
end

/-! ## Normalization -/

/-- What may stand in a conjunction under a condition. -/
def isPart : EffectTree → Bool
  | .primitive _ | .conditional _ _ => true
  | .conjunctive _ | .universal _ _ => false

def normalizeUniversal (parameters : List TypedObject) : EffectTree → EffectTree
  | .conjunctive effects => conjunctiveEffect (effects.map (universalEffect parameters))
  | effect => universalEffect parameters effect

def normalizeConditional (condition : Condition) : EffectTree → Option EffectTree
  | .conjunctive effects =>
    if effects.all isPart then some (conjunctiveEffect (effects.map (conditionalEffect condition))) else none
  | .universal parameters effect => some (universalEffect parameters (conditionalEffect condition effect))
  | effect => some (conditionalEffect condition effect)

mutual
def normalize : EffectTree → Option EffectTree
  | .conjunctive effects => (normalizeEach effects).map conjunctiveEffect
  | .universal parameters effect => effect.normalize.map (normalizeUniversal parameters)
  | .conditional condition effect => effect.normalize.bind (normalizeConditional condition)
  | .primitive effect => some (.primitive effect)

def normalizeEach : List EffectTree → Option (List EffectTree)
  | [] => some []
  | effect :: effects =>
    match effect.normalize, normalizeEach effects with
    | some effect, some effects => some (effect :: effects)
    | _, _ => none
end

def isCostAssignment : EffectTree → Bool
  | .primitive (.assignment assignment) => assignment.fluent = "total-cost"
  | _ => false

/-- The parser asserts that there is at most one unconditional effect on the cost. -/
def costAccepted : EffectTree → Bool
  | .conjunctive effects => effects.countP isCostAssignment ≤ 1
  | _ => true

/-! ## The list of effects -/

/-- The effect of a normalized tree that is no conjunction. -/
def toEffect : EffectTree → Option Effect
  | .universal parameters (.conditional condition (.primitive effect)) =>
    some ⟨parameters, condition.simplified, effect⟩
  | .universal parameters (.primitive effect) => some ⟨parameters, .truth, effect⟩
  | .conditional condition (.primitive effect) => some ⟨[], condition.simplified, effect⟩
  | .primitive effect => some ⟨[], .truth, effect⟩
  | _ => none

/-- An effect that contradicts one in the list replaces it if it adds the fact.  Numeric effects are never compared:
the comparison is with the assignments in a list of effects, of which there are none. -/
def addPrimitive (result : List Effect) (effect : Effect) : List Effect :=
  match effect.peffect with
  | .assignment _ => result ++ [effect]
  | .literal negated predicate args =>
    let contradiction := { effect with peffect := .literal (!negated) predicate args }
    if contradiction ∉ result then result ++ [effect]
    else if negated then result
    else result.erase contradiction ++ [effect]

mutual
def addEffect (result : List Effect) : EffectTree → Option (List Effect)
  | .conjunctive effects => addEach result effects
  | .universal parameters effect => (toEffect (.universal parameters effect)).map (addPrimitive result)
  | .conditional condition effect => (toEffect (.conditional condition effect)).map (addPrimitive result)
  | .primitive effect => (toEffect (.primitive effect)).map (addPrimitive result)

def addEach (result : List Effect) : List EffectTree → Option (List Effect)
  | [] => some result
  | effect :: effects => (addEffect result effect).bind fun result => addEach result effects
end

def parseEffects (tree : EffectTree) : Option (List Effect) :=
  tree.parseEffect.normalize.bind fun normalized =>
    if normalized.costAccepted then addEffect [] normalized else none

end EffectTree

/-! ## Updates with their ways -/

structure GroundAssignment where
  symbol : FOperator
  fluent : String
  fluentArgs : List String
  expression : String
  expressionArgs : List String
  deriving DecidableEq, Repr

def Assignment.ground (mapping : Mapping) (assignment : Assignment) : GroundAssignment where
  symbol := assignment.symbol
  fluent := assignment.fluent
  fluentArgs := assignment.fluentArgs.map (Argument.value mapping)
  expression := assignment.expression
  expressionArgs := assignment.expressionArgs.map (Argument.value mapping)

def PrimitiveEffect.ground (mapping : Mapping) : PrimitiveEffect → List GroundAssignment
  | .literal _ _ _ => []
  | .assignment update => [update.ground mapping]

/-- The numeric updates of an effect, each with the number of ways in which its condition holds. -/
def Effect.updates (world : World) (mapping : Mapping) (effect : Effect) : List (GroundAssignment × ℕ) :=
  (assignments world.objectsByType effect.parameters mapping).flatMap fun mapping =>
    (effect.peffect.ground mapping).map fun update => (update, effect.condition.ways world mapping)

mutual
/-- The numeric updates of a tree with the ways of their simplified conditions, which are read where the update is.
The weight is the number of ways of the conditions around the tree. -/
def EffectTree.updates (world : World) (weight : Mapping → ℕ) (mapping : Mapping) :
    EffectTree → List (GroundAssignment × ℕ)
  | .conjunctive effects => updatesOfEach world weight mapping effects
  | .universal parameters effect =>
    (assignments world.objectsByType parameters mapping).flatMap fun mapping => effect.updates world weight mapping
  | .conditional condition effect =>
    effect.updates world (fun mapping => weight mapping * condition.simplified.ways world mapping) mapping
  | .primitive effect => (effect.ground mapping).map fun update => (update, weight mapping)

def updatesOfEach (world : World) (weight : Mapping → ℕ) (mapping : Mapping) :
    List EffectTree → List (GroundAssignment × ℕ)
  | [] => []
  | effect :: effects => effect.updates world weight mapping ++ updatesOfEach world weight mapping effects
end

namespace EffectTree

variable {world : World} {weight : Mapping → ℕ} {mapping : Mapping}

theorem updatesOfEach_eq (effects : List EffectTree) :
    updatesOfEach world weight mapping effects = effects.flatMap (EffectTree.updates world weight mapping) := by
  induction effects with
  | nil => rfl
  | cons effect effects inductionHypothesis => rw [updatesOfEach, inductionHypothesis, List.flatMap_cons]

theorem parseEach_eq (effects : List EffectTree) : parseEach effects = effects.map parseEffect := by
  induction effects with
  | nil => rfl
  | cons effect effects inductionHypothesis => rw [parseEach, inductionHypothesis, List.map_cons]

theorem updates_flattened (effect : EffectTree) :
    effect.flattened.flatMap (EffectTree.updates world weight mapping) = effect.updates world weight mapping := by
  cases effect with
  | conjunctive effects => rw [flattened, EffectTree.updates, updatesOfEach_eq]
  | universal _ _ | conditional _ _ | primitive _ => simp [flattened]

theorem updates_conjunctiveEffect (effects : List EffectTree) :
    (conjunctiveEffect effects).updates world weight mapping =
      effects.flatMap (EffectTree.updates world weight mapping) := by
  rw [conjunctiveEffect, EffectTree.updates, updatesOfEach_eq, List.flatMap_assoc]
  exact List.flatMap_congr fun effect _ => updates_flattened effect

theorem updates_universalEffect (parameters : List TypedObject) (effect : EffectTree) :
    ((universalEffect parameters effect).updates world weight mapping).Perm
      ((assignments world.objectsByType parameters mapping).flatMap fun mapping =>
        effect.updates world weight mapping) := by
  cases effect with
  | universal inner effect =>
    simp only [universalEffect, EffectTree.updates]
    rw [← List.flatMap_assoc]
    exact (assignments_append parameters inner mapping).flatMap_right _
  | conjunctive _ | conditional _ _ | primitive _ => exact .refl _

theorem updates_conditionalEffect (condition : Condition) (effect : EffectTree) :
    (conditionalEffect condition effect).updates world weight mapping =
      effect.updates world (fun mapping => weight mapping * condition.simplified.ways world mapping) mapping := by
  cases effect with
  | conditional inner effect =>
    have both : ∀ mapping, (Condition.conjunction [condition, inner]).simplified.ways world mapping =
        condition.simplified.ways world mapping * inner.simplified.ways world mapping := by
      intro mapping
      rw [Condition.simplified, Condition.simplifiedEach_eq, Condition.ways_simplifiedConjunction]
      simp
    simp only [conditionalEffect, EffectTree.updates, both, mul_assoc]
  | conjunctive _ | universal _ _ | primitive _ => rfl

theorem updates_universal_conjunctive (parameters : List TypedObject) (effects : List EffectTree) :
    ((assignments world.objectsByType parameters mapping).flatMap fun mapping =>
      effects.flatMap (EffectTree.updates world weight mapping)).Perm
      (effects.flatMap fun effect => (assignments world.objectsByType parameters mapping).flatMap fun mapping =>
        effect.updates world weight mapping) := by
  have swapped := Multiset.bind_bind (assignments world.objectsByType parameters mapping : Multiset Mapping)
    (effects : Multiset EffectTree)
    (f := fun mapping effect => (effect.updates world weight mapping : Multiset (GroundAssignment × ℕ)))
  rw [← Multiset.coe_eq_coe]
  simpa only [Multiset.coe_bind] using swapped

theorem updates_parseEffect (tree : EffectTree) (weight : Mapping → ℕ) (mapping : Mapping) :
    (tree.parseEffect.updates world weight mapping).Perm (tree.updates world weight mapping) := by
  induction tree using EffectTree.induct generalizing weight mapping with
  | primitive effect => exact .refl _
  | conjunctive effects inductionHypothesis =>
    rw [parseEffect, parseEach_eq, updates_conjunctiveEffect, List.flatMap_map, EffectTree.updates, updatesOfEach_eq]
    exact List.Perm.flatMap_left _ fun effect isEffect => inductionHypothesis effect isEffect weight mapping
  | universal parameters effect inductionHypothesis =>
    rw [parseEffect, EffectTree.updates]
    exact (updates_universalEffect parameters _).trans
      (List.Perm.flatMap_left _ fun mapping _ => inductionHypothesis weight mapping)
  | conditional condition effect inductionHypothesis =>
    rw [parseEffect, updates_conditionalEffect, EffectTree.updates]
    exact inductionHypothesis _ mapping

theorem updates_normalizeUniversal (parameters : List TypedObject) (effect : EffectTree) :
    ((normalizeUniversal parameters effect).updates world weight mapping).Perm
      ((assignments world.objectsByType parameters mapping).flatMap fun mapping =>
        effect.updates world weight mapping) := by
  cases effect with
  | conjunctive effects =>
    rw [normalizeUniversal, updates_conjunctiveEffect, List.flatMap_map]
    simp only [EffectTree.updates, updatesOfEach_eq]
    exact (List.Perm.flatMap_left _ fun effect _ => updates_universalEffect parameters effect).trans
      (updates_universal_conjunctive parameters effects).symm
  | universal _ _ | conditional _ _ | primitive _ =>
    simpa only [normalizeUniversal] using updates_universalEffect parameters _

theorem updates_normalizeConditional {condition : Condition} {effect normalized : EffectTree}
    (isNormalized : normalizeConditional condition effect = some normalized) :
    (normalized.updates world weight mapping).Perm
      (effect.updates world (fun mapping => weight mapping * condition.simplified.ways world mapping) mapping) := by
  cases effect with
  | conjunctive effects =>
    rw [normalizeConditional] at isNormalized
    split at isNormalized
    case isTrue =>
      rw [Option.some_inj] at isNormalized
      subst isNormalized
      rw [updates_conjunctiveEffect, List.flatMap_map, EffectTree.updates, updatesOfEach_eq]
      exact List.Perm.flatMap_left _ fun effect _ => by rw [updates_conditionalEffect]
    case isFalse => cases isNormalized
  | universal parameters effect =>
    rw [normalizeConditional, Option.some_inj] at isNormalized
    subst isNormalized
    refine (updates_universalEffect parameters _).trans ?_
    rw [EffectTree.updates]
    exact List.Perm.flatMap_left _ fun mapping _ => by rw [updates_conditionalEffect]
  | conditional inner effect =>
    cases isNormalized
    rw [updates_conditionalEffect]
  | primitive effect =>
    cases isNormalized
    rw [updates_conditionalEffect]

theorem updates_normalize {tree normalized : EffectTree} (isNormalized : tree.normalize = some normalized)
    (weight : Mapping → ℕ) (mapping : Mapping) :
    (normalized.updates world weight mapping).Perm (tree.updates world weight mapping) := by
  induction tree using EffectTree.induct generalizing weight mapping normalized with
  | primitive effect =>
    cases isNormalized
    exact .refl _
  | conjunctive effects inductionHypothesis =>
    rw [normalize, Option.map_eq_some_iff] at isNormalized
    obtain ⟨parts, areNormalized, rfl⟩ := isNormalized
    rw [updates_conjunctiveEffect, EffectTree.updates, updatesOfEach_eq]
    induction effects generalizing parts with
    | nil =>
      cases areNormalized
      exact .refl _
    | cons effect effects ofRest =>
      rw [normalizeEach] at areNormalized
      split at areNormalized
      case h_1 first rest isFirst isRest =>
        cases areNormalized
        rw [List.forall_mem_cons] at inductionHypothesis
        rw [List.flatMap_cons, List.flatMap_cons]
        exact (inductionHypothesis.1 isFirst weight mapping).append (ofRest inductionHypothesis.2 rest isRest)
      case h_2 => cases areNormalized
  | universal parameters effect inductionHypothesis =>
    rw [normalize, Option.map_eq_some_iff] at isNormalized
    obtain ⟨inner, isInner, rfl⟩ := isNormalized
    rw [EffectTree.updates]
    exact (updates_normalizeUniversal parameters inner).trans
      (List.Perm.flatMap_left _ fun mapping _ => inductionHypothesis isInner weight mapping)
  | conditional condition effect inductionHypothesis =>
    rw [normalize, Option.bind_eq_some_iff] at isNormalized
    obtain ⟨inner, isInner, isNormalized⟩ := isNormalized
    rw [EffectTree.updates]
    exact (updates_normalizeConditional isNormalized).trans (inductionHypothesis isInner _ mapping)

/-! ## The list has the updates of the tree -/

theorem updates_toEffect {tree : EffectTree} {effect : Effect} (isEffect : tree.toEffect = some effect) :
    effect.updates world mapping = tree.updates world (fun _ => 1) mapping := by
  rw [toEffect.eq_def] at isEffect
  split at isEffect
  all_goals cases isEffect
  all_goals simp [Effect.updates, EffectTree.updates]

theorem updates_literal (parameters : List TypedObject) (condition : Condition) (negated : Bool) (predicate : String)
    (args : List Argument) :
    Effect.updates world mapping ⟨parameters, condition, .literal negated predicate args⟩ = [] := by
  simp [Effect.updates, PrimitiveEffect.ground]

theorem updates_addPrimitive (result : List Effect) (effect : Effect) :
    ((addPrimitive result effect).flatMap (Effect.updates world mapping)).Perm
      (result.flatMap (Effect.updates world mapping) ++ effect.updates world mapping) := by
  rw [addPrimitive]
  obtain ⟨parameters, condition, peffect⟩ := effect
  cases peffect with
  | assignment assignment => simp
  | literal negated predicate args =>
    simp only [updates_literal, List.append_nil]
    split
    case isTrue => simp [updates_literal]
    case isFalse isContradicted =>
      rw [not_not] at isContradicted
      split
      case isTrue => exact .refl _
      case isFalse =>
        -- The removed effect is a literal as well.
        have removed := (List.perm_cons_erase isContradicted).flatMap_right (Effect.updates world mapping)
        rw [List.flatMap_cons, updates_literal, List.nil_append] at removed
        simpa [updates_literal] using removed.symm

theorem updates_addToEffect {tree : EffectTree} {result added : List Effect}
    (isAdded : tree.toEffect.map (addPrimitive result) = some added) :
    (added.flatMap (Effect.updates world mapping)).Perm
      (result.flatMap (Effect.updates world mapping) ++ tree.updates world (fun _ => 1) mapping) := by
  obtain ⟨effect, isEffect, rfl⟩ := Option.map_eq_some_iff.mp isAdded
  rw [← updates_toEffect isEffect]
  exact updates_addPrimitive result effect

theorem updates_addEffect {tree : EffectTree} {result added : List Effect} (isAdded : addEffect result tree = some added) :
    (added.flatMap (Effect.updates world mapping)).Perm
      (result.flatMap (Effect.updates world mapping) ++ tree.updates world (fun _ => 1) mapping) := by
  induction tree using EffectTree.induct generalizing result added with
  | primitive effect => exact updates_addToEffect isAdded
  | universal parameters effect _ => exact updates_addToEffect isAdded
  | conditional condition effect _ => exact updates_addToEffect isAdded
  | conjunctive effects inductionHypothesis =>
    rw [addEffect] at isAdded
    rw [EffectTree.updates, updatesOfEach_eq]
    induction effects generalizing result with
    | nil =>
      cases isAdded
      simp
    | cons effect effects ofRest =>
      rw [addEach, Option.bind_eq_some_iff] at isAdded
      obtain ⟨middle, isMiddle, isAdded⟩ := isAdded
      rw [List.forall_mem_cons] at inductionHypothesis
      rw [List.flatMap_cons, ← List.append_assoc]
      exact (ofRest inductionHypothesis.2 isAdded).trans ((inductionHypothesis.1 isMiddle).append_right _)

/-- Parsing keeps the updates, and reads every condition where the update is. -/
theorem updates_parseEffects {tree : EffectTree} {effects : List Effect} (isParsed : tree.parseEffects = some effects) :
    (effects.flatMap (Effect.updates world mapping)).Perm (tree.updates world (fun _ => 1) mapping) := by
  rw [parseEffects, Option.bind_eq_some_iff] at isParsed
  obtain ⟨normalized, isNormalized, isParsed⟩ := isParsed
  split at isParsed
  case isTrue =>
    have added := @updates_addEffect world mapping _ _ _ isParsed
    rw [List.flatMap_nil, List.nil_append] at added
    exact added.trans ((updates_normalize isNormalized _ mapping).trans (updates_parseEffect tree _ mapping))
  case isFalse => cases isParsed

end EffectTree

end CutPlan.Translate.Pddl
