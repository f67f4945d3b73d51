import CutPlan.Translate.QuantifierElimination
import CutPlan.Translate.UniqueVariables

/-! # Splitting and instantiating effects

An effect with a disjunctive condition is replaced by copies for the disjuncts, and existential quantifiers of a
condition become parameters of the effect.  The result is instantiated for every choice of objects.  The functions in
numeric effects have values here, so that no instance is dropped.
-/

namespace CutPlan.Translate.Pddl

namespace Effect

def buildDnf (effect : Effect) : Effect := { effect with condition := effect.condition.buildDnf }

/-- The copies are appended before the effect is removed. -/
def splitOwner (effects : List Effect) (owner : Effect) : List Effect :=
  match owner.condition with
  | .disjunction parts => (effects ++ parts.map fun part => { owner with condition := part }).erase owner
  | _ => effects

def splitDisjunctions (effects : List Effect) : List Effect := effects.foldl splitOwner effects

def moveExistentialQuantifiers (effect : Effect) : Effect :=
  { effect with condition := effect.condition.moveExistentialQuantifiers }

def eliminateExistential (effect : Effect) : Effect :=
  { effect with
    parameters := effect.parameters ++ effect.condition.eliminateExistential.1
    condition := effect.condition.eliminateExistential.2 }

def normalizeEffects (effects : List Effect) : List Effect :=
  ((splitDisjunctions (effects.map buildDnf)).map moveExistentialQuantifiers).map eliminateExistential

end Effect

/-! ## Instances -/

/-- The exceptions of `instantiate`. -/
inductive Raised where
  | impossible
  | valueError
  | assertionError
  deriving DecidableEq, Repr

/-- The objects, the facts that may change and those that hold initially. -/
structure GroundTask where
  objectsByType : String → List String
  fluentFacts : String → List String → Bool
  initFacts : String → List String → Bool

abbrev GroundTest := Test × List String

section Instantiate

variable (task : GroundTask) (mapping : Mapping)

/-- A test of a fact that never changes is decided by the initial facts. -/
def instantiateTest (result : List GroundTest) (test : Test) (args : List String) : Except Raised (List GroundTest) :=
  match test with
  | .comparison _ _ => .ok (result ++ [(test, args)])
  | .literal negated predicate =>
    if task.fluentFacts predicate args then .ok (result ++ [(test, args)])
    else if task.initFacts predicate args = negated then .error .impossible
    else .ok result

mutual
def Condition.instantiate (result : List GroundTest) : Condition → Except Raised (List GroundTest)
  | .truth => .ok result
  | .falsity => .error .impossible
  | .test test args => instantiateTest task result test (args.map (Argument.value mapping))
  | .conjunction parts => if result = [] then instantiateParts result parts else .error .assertionError
  | .disjunction _ => .error .valueError
  | .existential _ part => if result = [] then part.instantiate result else .error .assertionError

def instantiateParts (result : List GroundTest) : List Condition → Except Raised (List GroundTest)
  | [] => .ok result
  | part :: parts =>
    match part.instantiate result with
    | .ok result => instantiateParts result parts
    | .error raised => .error raised
end

/-- The numeric update of an effect with the tests of its condition. -/
def Effect.instantiateOne (effect : Effect) : Except Raised (List (List GroundTest × GroundAssignment)) :=
  match effect.condition.instantiate task mapping [] with
  | .ok condition => .ok ((effect.peffect.ground mapping).map fun update => (condition, update))
  | .error .impossible => .ok []
  | .error raised => .error raised

end Instantiate

def collect {Item Found : Type} (find : Item → Except Raised (List Found)) : List Item → Except Raised (List Found)
  | [] => .ok []
  | item :: items =>
    match find item, collect find items with
    | .ok found, .ok rest => .ok (found ++ rest)
    | .error raised, _ => .error raised
    | _, .error raised => .error raised

def Effect.instantiate (task : GroundTask) (mapping : Mapping) (effect : Effect) :
    Except Raised (List (List GroundTest × GroundAssignment)) :=
  collect (fun mapping => effect.instantiateOne task mapping) (assignments task.objectsByType effect.parameters mapping)

/-- The numeric effects of an action for the objects of its parameters. -/
def instantiateEffects (task : GroundTask) (mapping : Mapping) (typeMap : List TypedObject) (effects : List Effect) :
    Except Raised (List (List GroundTest × GroundAssignment)) :=
  collect (Effect.instantiate task mapping) (Effect.normalizeEffects (uniquifyEffects typeMap effects))

/-- Which ground tests hold.  Facts that never change are as they are initially. -/
structure State (task : GroundTask) where
  holdsTest : Test → List String → Bool
  static : ∀ negated predicate args, task.fluentFacts predicate args = false →
    holdsTest (.literal negated predicate) args = (task.initFacts predicate args != negated)

def State.world {task : GroundTask} (state : State task) : World := ⟨task.objectsByType, state.holdsTest⟩

def State.holdsAll {task : GroundTask} (state : State task) (tests : List GroundTest) : Bool :=
  tests.all fun test => state.holdsTest test.1 test.2

/-- The updates whose conditions hold. -/
def State.updates {task : GroundTask} (state : State task) (instances : List (List GroundTest × GroundAssignment)) :
    List GroundAssignment :=
  (instances.filter fun ground => state.holdsAll ground.1).map (·.2)

/-! ## Splitting keeps the updates -/

/-- Every update as often as its condition holds. -/
def expand (updates : List (GroundAssignment × ℕ)) : List GroundAssignment :=
  updates.flatMap fun update => List.replicate update.2 update.1

theorem expand_append (first second : List (GroundAssignment × ℕ)) :
    expand (first ++ second) = expand first ++ expand second := List.flatMap_append

theorem expand_flatMap {Item : Type} (items : List Item) (updates : Item → List (GroundAssignment × ℕ)) :
    expand (items.flatMap updates) = items.flatMap fun item => expand (updates item) := List.flatMap_assoc

theorem expand_perm {first second : List (GroundAssignment × ℕ)} (perm : first.Perm second) :
    (expand first).Perm (expand second) := perm.flatMap_right _

theorem flatMap_replicate {Item Update : Type} (items : List Item) (count : Item → ℕ) (update : Update) :
    (items.flatMap fun item => List.replicate (count item) update) = List.replicate (items.map count).sum update := by
  induction items with
  | nil => rfl
  | cons item items inductionHypothesis =>
    rw [List.flatMap_cons, inductionHypothesis, List.map_cons, List.sum_cons, List.replicate_add]

theorem flatMap_swap {First Second Found : Type} (first : List First) (second : List Second)
    (found : First → Second → List Found) :
    (first.flatMap fun item => second.flatMap fun other => found item other).Perm
      (second.flatMap fun other => first.flatMap fun item => found item other) := by
  have swapped := Multiset.bind_bind (first : Multiset First) (second : Multiset Second)
    (f := fun item other => (found item other : Multiset Found))
  rw [← Multiset.coe_eq_coe]
  simpa only [Multiset.coe_bind] using swapped

namespace Effect

variable {world : World} {mapping : Mapping}

/-- The effects into which one is split. -/
def split (effect : Effect) : List Effect :=
  effect.condition.splitCondition.map fun part => ⟨effect.parameters ++ part.1, part.2, effect.peffect⟩

def pieces (effect : Effect) : List Effect :=
  effect.condition.splitDisjunction.map fun part => { effect with condition := part }

theorem foldl_splitOwner {owners others effects : List Effect} (perm : (owners ++ others).Perm effects) :
    (owners.foldl splitOwner effects).Perm (owners.flatMap pieces ++ others) := by
  induction owners generalizing others effects with
  | nil => exact perm.symm
  | cons owner owners inductionHypothesis =>
    rw [List.foldl_cons, List.flatMap_cons]
    cases isDisjunction : owner.condition with
    | disjunction parts =>
      have next : (owners ++ (others ++ owner.pieces)).Perm (splitOwner effects owner) := by
        simp only [splitOwner, isDisjunction, pieces, Condition.splitDisjunction]
        have removed := (perm.append_right (parts.map fun part => { owner with condition := part })).erase owner
        rw [List.cons_append, List.cons_append, List.erase_cons_head, List.append_assoc] at removed
        exact removed
      refine (inductionHypothesis next).trans ?_
      rw [← List.append_assoc, List.append_assoc owner.pieces]
      exact List.perm_append_comm
    | truth | falsity | test _ _ | conjunction _ | existential _ _ =>
      have same : splitOwner effects owner = effects := by simp only [splitOwner, isDisjunction]
      have single : owner.pieces = [owner] := by
        obtain ⟨parameters, condition, peffect⟩ := owner
        cases isDisjunction
        rfl
      rw [same, single]
      have next : (owners ++ owner :: others).Perm effects := List.perm_middle.trans perm
      exact (inductionHypothesis next).trans List.perm_middle

theorem splitDisjunctions_perm (effects : List Effect) : (splitDisjunctions effects).Perm (effects.flatMap pieces) := by
  have perm : (effects ++ []).Perm effects := by rw [List.append_nil]
  simpa [splitDisjunctions] using foldl_splitOwner perm

theorem normalizeEffects_perm (effects : List Effect) : (normalizeEffects effects).Perm (effects.flatMap split) := by
  have perm := ((splitDisjunctions_perm (effects.map buildDnf)).map moveExistentialQuantifiers).map eliminateExistential
  rw [normalizeEffects]
  refine perm.trans (List.Perm.of_eq ?_)
  rw [List.flatMap_map, List.map_flatMap, List.map_flatMap]
  apply List.flatMap_congr
  intro effect _
  simp only [split, pieces, Condition.splitCondition, List.map_map]
  rfl

/-- The parts of a split effect fire as often as the effect has ways to fire. -/
theorem expand_split {effect : Effect} (ready : effect.Ready) :
    (expand (effect.split.flatMap (Effect.updates world mapping))).Perm (expand (effect.updates world mapping)) := by
  obtain ⟨parameters, condition, peffect⟩ := effect
  cases peffect with
  | literal negated predicate args =>
    rw [EffectTree.updates_literal, split, List.flatMap_map]
    simp only [EffectTree.updates_literal]
    rw [List.flatMap_eq_nil_iff.mpr fun _ _ => rfl]
  | assignment update =>
    have single : ∀ parameters condition, expand (Effect.updates world mapping ⟨parameters, condition, .assignment update⟩) =
        (assignments world.objectsByType parameters mapping).flatMap fun mapping =>
          List.replicate (condition.ways world mapping) (update.ground mapping) := by
      intro parameters condition
      simp [Effect.updates, PrimitiveEffect.ground, expand, List.flatMap_assoc]
    rw [single, expand_flatMap, split, List.flatMap_map]
    simp only [single]
    calc (condition.splitCondition.flatMap fun part =>
            (assignments world.objectsByType (parameters ++ part.1) mapping).flatMap fun mapping =>
              List.replicate (part.2.ways world mapping) (update.ground mapping))
        |>.Perm (condition.splitCondition.flatMap fun part =>
            (assignments world.objectsByType parameters mapping).flatMap fun outer =>
              (assignments world.objectsByType part.1 outer).flatMap fun mapping =>
                List.replicate (part.2.ways world mapping) (update.ground mapping)) := by
          refine List.Perm.flatMap_left _ fun part _ => ?_
          rw [← List.flatMap_assoc]
          exact (assignments_append parameters part.1 mapping).flatMap_right _
      _ |>.Perm ((assignments world.objectsByType parameters mapping).flatMap fun outer =>
            condition.splitCondition.flatMap fun part =>
              (assignments world.objectsByType part.1 outer).flatMap fun mapping =>
                List.replicate (part.2.ways world mapping) (update.ground mapping)) := flatMap_swap _ _ _
      _ |>.Perm ((assignments world.objectsByType parameters mapping).flatMap fun outer =>
            List.replicate (condition.ways world outer) (update.ground outer)) := by
          refine List.Perm.of_eq (List.flatMap_congr fun outer _ => ?_)
          rw [← Condition.ways_splitCondition ready.normal ready.apart, ← flatMap_replicate]
          apply List.flatMap_congr
          intro part isPart
          rw [← flatMap_replicate]
          apply List.flatMap_congr
          intro mapping isMapping
          -- The update does not mention the new parameters.
          have subset := (Condition.splitCondition_flat ready.normal ready.apart part isPart).2
          have agree := Condition.agree_of_mem_assignments isMapping fun name isParameter isName =>
            ready.fresh (subset isParameter) isName
          have sameUpdate : update.ground mapping = update.ground outer := by
            rw [Assignment.ground, Assignment.ground,
              argument_value_congr fun name isName => agree name (List.mem_append_left _ isName),
              argument_value_congr fun name isName => agree name (List.mem_append_right _ isName)]
          rw [sameUpdate]

theorem expand_normalizeEffects {effects : List Effect} (ready : ∀ effect ∈ effects, effect.Ready) :
    (expand ((normalizeEffects effects).flatMap (Effect.updates world mapping))).Perm
      (expand (effects.flatMap (Effect.updates world mapping))) := by
  refine (expand_perm ((normalizeEffects_perm effects).flatMap_right _)).trans ?_
  rw [List.flatMap_assoc, expand_flatMap, expand_flatMap]
  exact List.Perm.flatMap_left _ fun effect isEffect => expand_split (ready effect isEffect)

theorem flat_normalizeEffects {effects : List Effect} (ready : ∀ effect ∈ effects, effect.Ready) :
    ∀ effect ∈ normalizeEffects effects, effect.condition.Flat := by
  intro effect isEffect
  obtain ⟨source, isSource, isSplit⟩ := List.mem_flatMap.mp ((normalizeEffects_perm effects).mem_iff.mp isEffect)
  obtain ⟨part, isPart, rfl⟩ := List.mem_map.mp isSplit
  exact (Condition.splitCondition_flat (ready source isSource).normal (ready source isSource).apart part isPart).1

end Effect

/-! ## Instances fire as their effects -/

section Instances

variable {task : GroundTask} {mapping : Mapping}

/-- The tests of a condition, or none if a fact that never changes excludes it. -/
inductive InstantiatesTo (task : GroundTask) (result : List GroundTest) (ways : World → ℕ) :
    Except Raised (List GroundTest) → Prop where
  | impossible (noWays : ∀ state : State task, ways state.world = 0) :
      InstantiatesTo task result ways (.error .impossible)
  | tests {tests : List GroundTest} (same : ∀ state : State task,
      (state.holdsAll tests).toNat = (state.holdsAll result).toNat * ways state.world) :
      InstantiatesTo task result ways (.ok tests)

theorem instantiateTest_spec (result : List GroundTest) (test : Test) (args : List String) :
    InstantiatesTo task result (fun world => (world.holdsTest test args).toNat)
      (instantiateTest task result test args) := by
  have appended : InstantiatesTo task result (fun world => (world.holdsTest test args).toNat)
      (.ok (result ++ [(test, args)])) := by
    refine .tests fun state => ?_
    have split : state.holdsAll (result ++ [(test, args)]) = (state.holdsAll result && state.holdsTest test args) := by
      simp [State.holdsAll]
    rw [split, State.world]
    cases state.holdsAll result <;> simp
  cases test with
  | comparison negated comparison => exact appended
  | literal negated predicate =>
    rw [instantiateTest]
    split
    case isTrue => exact appended
    case isFalse notFluent =>
      rw [Bool.not_eq_true] at notFluent
      split
      case isTrue excluded =>
        refine .impossible fun state => ?_
        simp [State.world, state.static negated predicate args notFluent, excluded]
      case isFalse notExcluded =>
        refine .tests fun state => ?_
        have holds : (task.initFacts predicate args != negated) = true := by simpa using notExcluded
        simp [State.world, state.static negated predicate args notFluent, holds]

theorem instantiateParts_spec (result : List GroundTest) (tests : List (Test × List Argument)) :
    InstantiatesTo task result
      (fun world => ((tests.map fun test => Condition.test test.1 test.2).map (Condition.ways world mapping)).prod)
      (instantiateParts task mapping result (tests.map fun test => .test test.1 test.2)) := by
  induction tests generalizing result with
  | nil => exact .tests fun state => by simp
  | cons test tests inductionHypothesis =>
    have first := @instantiateTest_spec task result test.1 (test.2.map (Argument.value mapping))
    simp only [List.map_cons, instantiateParts, Condition.instantiate, List.prod_cons, Condition.ways]
    generalize instantiateTest task result test.1 (test.2.map (Argument.value mapping)) = outcome at first
    cases first with
    | impossible noWays => exact .impossible fun state => by rw [noWays state, zero_mul]
    | @tests middle sameMiddle =>
      have rest := inductionHypothesis middle
      simp only
      generalize instantiateParts task mapping middle (tests.map fun test => .test test.1 test.2) = outcome at rest
      cases rest with
      | impossible noWays => exact .impossible fun state => by rw [noWays state, mul_zero]
      | tests same => exact .tests fun state => by rw [same state, sameMiddle state, mul_assoc]

theorem instantiate_spec {condition : Condition} (flat : condition.Flat) :
    InstantiatesTo task [] (fun world => condition.ways world mapping) (condition.instantiate task mapping []) := by
  cases flat with
  | truth => exact .tests fun state => by simp
  | falsity => exact .impossible fun _ => rfl
  | test kind args => exact instantiateTest_spec [] kind _
  | conjunction tests =>
    rw [Condition.instantiate, if_pos rfl]
    simp only [Condition.ways_conjunction]
    exact instantiateParts_spec [] tests

/-- An instance of an effect fires if its condition holds. -/
theorem instantiateOne_spec {effect : Effect} (flat : effect.condition.Flat) (mapping : Mapping) :
    ∃ instances, effect.instantiateOne task mapping = .ok instances ∧ ∀ state : State task,
      state.updates instances = expand ((effect.peffect.ground mapping).map fun update =>
        (update, effect.condition.ways state.world mapping)) := by
  have spec := @instantiate_spec task mapping _ flat
  rw [Effect.instantiateOne]
  generalize effect.condition.instantiate task mapping [] = outcome at spec
  cases spec with
  | impossible noWays =>
    refine ⟨[], rfl, fun state => ?_⟩
    simp [State.updates, expand, noWays state]
  | @tests tests same =>
    refine ⟨_, rfl, fun state => ?_⟩
    have ways : (state.holdsAll tests).toNat = effect.condition.ways state.world mapping := by
      rw [same state]
      simp [State.holdsAll]
    rw [← ways]
    cases holds : state.holdsAll tests <;>
      simp [State.updates, expand, holds, List.flatMap_map, List.filter_map, Function.comp_def]

theorem updates_append (state : State task) (first second : List (List GroundTest × GroundAssignment)) :
    state.updates (first ++ second) = state.updates first ++ state.updates second := by
  rw [State.updates, List.filter_append, List.map_append]
  rfl

theorem collect_spec {Item : Type} {find : Item → Except Raised (List (List GroundTest × GroundAssignment))}
    {items : List Item} {updates : World → Item → List (GroundAssignment × ℕ)}
    (finds : ∀ item ∈ items, ∃ instances, find item = .ok instances ∧ ∀ state : State task,
      state.updates instances = expand (updates state.world item)) :
    ∃ instances, collect find items = .ok instances ∧ ∀ state : State task,
      state.updates instances = expand (items.flatMap (updates state.world)) := by
  induction items with
  | nil => exact ⟨[], rfl, fun _ => rfl⟩
  | cons item items inductionHypothesis =>
    rw [List.forall_mem_cons] at finds
    obtain ⟨first, isFirst, firstUpdates⟩ := finds.1
    obtain ⟨rest, isRest, restUpdates⟩ := inductionHypothesis finds.2
    refine ⟨first ++ rest, by simp only [collect, isFirst, isRest], fun state => ?_⟩
    rw [updates_append, firstUpdates, restUpdates, List.flatMap_cons, expand_append]

/-- The instances of effects with unique variables fire as often as their conditions have ways to hold. -/
theorem instantiateEffects_spec {typeMap : List TypedObject} {effects : List Effect}
    (ready : ∀ effect ∈ uniquifyEffects typeMap effects, effect.Ready) (mapping : Mapping) :
    ∃ instances, instantiateEffects task mapping typeMap effects = .ok instances ∧ ∀ state : State task,
      (state.updates instances).Perm
        (expand ((uniquifyEffects typeMap effects).flatMap (Effect.updates state.world mapping))) := by
  have flat := Effect.flat_normalizeEffects ready
  obtain ⟨instances, areInstances, sameUpdates⟩ := @collect_spec task _ (Effect.instantiate task mapping)
    (Effect.normalizeEffects (uniquifyEffects typeMap effects)) (fun world => Effect.updates world mapping)
    fun effect isEffect => @collect_spec task _ (fun mapping => effect.instantiateOne task mapping)
      (assignments task.objectsByType effect.parameters mapping)
      (fun world mapping => (effect.peffect.ground mapping).map fun update =>
        (update, effect.condition.ways world mapping))
      fun mapping _ => instantiateOne_spec (flat effect isEffect) mapping
  refine ⟨instances, areInstances, fun state => ?_⟩
  rw [sameUpdates state]
  exact Effect.expand_normalizeEffects ready

end Instances

end CutPlan.Translate.Pddl
