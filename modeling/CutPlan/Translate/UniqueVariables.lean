import CutPlan.Translate.EffectNormalization

/-! # Names of quantified variables

`uniquify_variables` gives every quantified variable of an action a name of its own.  The names known so far and the
renamings of the enclosing quantifiers are threaded through the conditions and the effects.
-/

namespace CutPlan.Translate.Pddl

/-- The names and types of the variables known so far, and how the variables in scope are renamed. -/
structure Naming where
  typeMap : List TypedObject
  renamings : Mapping

def Naming.names (naming : Naming) : List String := naming.typeMap.map TypedObject.name

/-- The counters are tried from 1; one more than there are names is enough. -/
def freshName (names : List String) (name : String) : String :=
  (((List.range (names.length + 1)).map fun counter => name ++ toString (counter + 1)).find? fun candidate =>
    candidate ∉ names).getD name

namespace Naming

def uniquifyName (naming : Naming) (parameter : TypedObject) : TypedObject × Naming :=
  if parameter.name ∉ naming.names then (parameter, ⟨naming.typeMap ++ [parameter], naming.renamings⟩)
  else
    let unique := { parameter with name := freshName naming.names parameter.name }
    (unique, ⟨naming.typeMap ++ [unique], Function.update naming.renamings parameter.name unique.name⟩)

def uniquifyParameters (naming : Naming) : List TypedObject → List TypedObject × Naming
  | [] => ([], naming)
  | parameter :: parameters =>
    let first := naming.uniquifyName parameter
    let rest := first.2.uniquifyParameters parameters
    (first.1 :: rest.1, rest.2)

end Naming

mutual
def Condition.uniquify (naming : Naming) : Condition → Condition × List TypedObject
  | .truth => (.truth, naming.typeMap)
  | .falsity => (.falsity, naming.typeMap)
  | .test test args => (.test test (args.map (Argument.rename naming.renamings)), naming.typeMap)
  | .conjunction parts => ((.conjunction (uniquifyEach naming parts).1), (uniquifyEach naming parts).2)
  | .disjunction parts => ((.disjunction (uniquifyEach naming parts).1), (uniquifyEach naming parts).2)
  | .existential parameters part =>
    let unique := naming.uniquifyParameters parameters
    (.existential unique.1 (part.uniquify unique.2).1, (part.uniquify unique.2).2)

def uniquifyEach (naming : Naming) : List Condition → List Condition × List TypedObject
  | [] => ([], naming.typeMap)
  | part :: parts =>
    let first := part.uniquify naming
    let rest := uniquifyEach ⟨first.2, naming.renamings⟩ parts
    (first.1 :: rest.1, rest.2)
end

def PrimitiveEffect.rename (renamings : Mapping) : PrimitiveEffect → PrimitiveEffect
  | .literal negated predicate args => .literal negated predicate (args.map (Argument.rename renamings))
  | .assignment update => .assignment
    { update with
      fluentArgs := update.fluentArgs.map (Argument.rename renamings)
      expressionArgs := update.expressionArgs.map (Argument.rename renamings) }

def PrimitiveEffect.names : PrimitiveEffect → List String
  | .literal _ _ args => argumentNames args
  | .assignment update => argumentNames update.fluentArgs ++ argumentNames update.expressionArgs

def Effect.uniquify (typeMap : List TypedObject) (effect : Effect) : Effect × List TypedObject :=
  let unique := Naming.uniquifyParameters ⟨typeMap, id⟩ effect.parameters
  let condition := effect.condition.uniquify unique.2
  (⟨unique.1, condition.1, effect.peffect.rename unique.2.renamings⟩, condition.2)

def uniquifyEffects (typeMap : List TypedObject) : List Effect → List Effect
  | [] => []
  | effect :: effects => (effect.uniquify typeMap).1 :: uniquifyEffects (effect.uniquify typeMap).2 effects

/-! ## Fresh names -/

theorem freshName_notMem (names : List String) (name : String) : freshName names name ∉ names := by
  have candidatesNodup : ((List.range (names.length + 1)).map fun counter => name ++ toString (counter + 1)).Nodup := by
    apply List.Nodup.map _ List.nodup_range
    intro first second same
    have printed : Nat.repr (first + 1) = Nat.repr (second + 1) := by simpa using same
    have digits : Nat.toDigits 10 (first + 1) = Nat.toDigits 10 (second + 1) := by
      rw [← Nat.toList_repr, ← Nat.toList_repr, printed]
    have same : first + 1 = second + 1 := by
      rw [← Nat.ofDigitChars_ten_toDigits (n := first + 1), digits, Nat.ofDigitChars_ten_toDigits]
    exact Nat.succ_injective same
  rw [freshName]
  cases found : ((List.range (names.length + 1)).map fun counter => name ++ toString (counter + 1)).find? fun candidate =>
    candidate ∉ names with
  | some candidate => simpa using List.find?_some found
  | none =>
    -- The candidates are too many to be among the names.
    have subset : ((List.range (names.length + 1)).map fun counter => name ++ toString (counter + 1)) ⊆ names := by
      intro candidate isCandidate
      simpa using List.find?_eq_none.mp found candidate isCandidate
    have short := (candidatesNodup.subperm subset).length_le
    simp at short

namespace Naming

variable {naming : Naming} {scope : List String}

/-- The variables in scope are renamed to known names, and unknown names stay. -/
structure Covers (naming : Naming) (scope : List String) : Prop where
  fresh : ∀ name ∉ naming.names, naming.renamings name = name
  known : ∀ name ∈ scope, naming.renamings name ∈ naming.names

/-- The renamed variables have the values of the variables in scope. -/
def Agree (naming : Naming) (scope : List String) (mapping renamed : Mapping) : Prop :=
  ∀ name ∈ scope, renamed (naming.renamings name) = mapping name

theorem Covers.subset {inner : List String} (covers : naming.Covers scope) (subset : inner ⊆ scope) :
    naming.Covers inner :=
  ⟨covers.fresh, fun name isName => covers.known name (subset isName)⟩

theorem Covers.extend (covers : naming.Covers scope) {typeMap : List TypedObject}
    (subset : naming.names ⊆ typeMap.map TypedObject.name) : Covers ⟨typeMap, naming.renamings⟩ scope :=
  ⟨fun name notName => covers.fresh name fun isName => notName (subset isName),
    fun name isName => subset (covers.known name isName)⟩

/-- A parameter and the parameter that takes its place. -/
structure Renamed (naming : Naming) (parameter unique : TypedObject) (next : Naming) : Prop where
  names : next.names = naming.names ++ [unique.name]
  new : unique.name ∉ naming.names
  typeName : unique.typeName = parameter.typeName
  known : parameter.name ∈ next.names
  renamed : unique.name = next.renamings parameter.name
  others : ∀ name, name ≠ parameter.name → next.renamings name = naming.renamings name

theorem renamed_uniquifyName (fresh : ∀ name ∉ naming.names, naming.renamings name = name)
    (parameter : TypedObject) :
    Renamed naming parameter (naming.uniquifyName parameter).1 (naming.uniquifyName parameter).2 := by
  rw [uniquifyName]
  split
  case isTrue new => exact ⟨by simp [Naming.names], new, rfl, by simp [Naming.names], (fresh _ new).symm, fun _ _ => rfl⟩
  case isFalse known =>
    rw [not_not] at known
    refine ⟨by simp [Naming.names], freshName_notMem _ _, rfl, ?_, ?_, fun name other => ?_⟩
    · rw [Naming.names, List.map_append]
      exact List.mem_append_left _ known
    · exact (Function.update_self parameter.name _ naming.renamings).symm
    · exact Function.update_of_ne other _ _

theorem Renamed.covers {parameter unique : TypedObject} {next : Naming}
    (isRenamed : Renamed naming parameter unique next) (covers : naming.Covers scope) :
    next.Covers (parameter.name :: scope) := by
  constructor
  · intro name notName
    have other : name ≠ parameter.name := fun same => notName (same ▸ isRenamed.known)
    rw [isRenamed.names, List.mem_append, not_or] at notName
    rw [isRenamed.others name other, covers.fresh name notName.1]
  · intro name isName
    rw [isRenamed.names, List.mem_append, List.mem_singleton]
    by_cases isParameter : name = parameter.name
    case pos => exact .inr (by rw [isParameter, isRenamed.renamed])
    case neg =>
      rw [isRenamed.others name isParameter]
      exact .inl (covers.known name ((List.mem_cons.mp isName).resolve_left isParameter))

theorem Renamed.agree {parameter unique : TypedObject} {next : Naming} (isRenamed : Renamed naming parameter unique next)
    (covers : naming.Covers scope) {mapping renamed : Mapping} (agree : naming.Agree scope mapping renamed)
    (object : String) :
    next.Agree (parameter.name :: scope) (Function.update mapping parameter.name object)
      (Function.update renamed unique.name object) := by
  intro name isName
  by_cases isParameter : name = parameter.name
  case pos => rw [isParameter, ← isRenamed.renamed, Function.update_self, Function.update_self]
  case neg =>
    have isOuter := (List.mem_cons.mp isName).resolve_left isParameter
    have other : naming.renamings name ≠ unique.name := fun same => isRenamed.new (same ▸ covers.known name isOuter)
    rw [isRenamed.others name isParameter, Function.update_of_ne other, Function.update_of_ne isParameter,
      agree name isOuter]

/-- The parameters that take the place of others. -/
structure RenamedAll (naming : Naming) (scope : List String) (parameters unique : List TypedObject) (next : Naming) :
    Prop where
  names : next.names = naming.names ++ unique.map TypedObject.name
  nodup : naming.names.Nodup → next.names.Nodup
  typeNames : unique.map TypedObject.typeName = parameters.map TypedObject.typeName
  covers : next.Covers (parameters.map TypedObject.name ++ scope)
  quantified : ∀ name ∈ parameters.map TypedObject.name, next.renamings name ∈ unique.map TypedObject.name
  others : ∀ name ∉ parameters.map TypedObject.name, next.renamings name = naming.renamings name
  agree : ∀ mapping renamed, naming.Agree scope mapping renamed → ∀ tuple, tuple.length = parameters.length →
    next.Agree (parameters.map TypedObject.name ++ scope) (assign mapping parameters tuple)
      (assign renamed unique tuple)

theorem renamedAll_uniquifyParameters (parameters : List TypedObject) (covers : naming.Covers scope) :
    RenamedAll naming scope parameters (naming.uniquifyParameters parameters).1
      (naming.uniquifyParameters parameters).2 := by
  induction parameters generalizing naming scope with
  | nil =>
    refine ⟨by simp [uniquifyParameters], id, rfl, covers, by simp, fun _ _ => rfl, fun mapping renamed agree tuple sameLength => ?_⟩
    rw [List.length_nil, List.length_eq_zero_iff] at sameLength
    exact sameLength ▸ agree
  | cons parameter parameters inductionHypothesis =>
    have first := renamed_uniquifyName covers.fresh parameter
    have rest := inductionHypothesis (first.covers covers)
    have sameScope : (parameter :: parameters).map TypedObject.name ++ scope ⊆
        parameters.map TypedObject.name ++ parameter.name :: scope := by
      intro name isName
      simp only [List.map_cons, List.cons_append, List.mem_cons, List.mem_append] at isName ⊢
      tauto
    rw [uniquifyParameters]
    refine ⟨?_, fun nodup => rest.nodup ?_, ?_, rest.covers.subset sameScope, fun name isName => ?_,
      fun name notName => ?_, ?_⟩
    · rw [rest.names, first.names, List.map_cons, List.append_assoc, List.singleton_append]
    · rw [first.names]
      exact nodup.append (List.nodup_singleton _) (List.disjoint_singleton.mpr first.new)
    · rw [List.map_cons, List.map_cons, first.typeName, rest.typeNames]
    · by_cases isRest : name ∈ parameters.map TypedObject.name
      case pos => exact List.mem_cons_of_mem _ (rest.quantified name isRest)
      case neg =>
        have isFirst : name = parameter.name := (List.mem_cons.mp isName).resolve_right isRest
        rw [rest.others name isRest, isFirst, ← first.renamed]
        exact List.mem_cons_self
    · rw [List.map_cons, List.mem_cons, not_or] at notName
      rw [rest.others name notName.2, first.others name notName.1]
    · intro mapping renamed agree tuple sameLength
      cases tuple with
      | nil => cases sameLength
      | cons object tuple =>
        rw [assign, assign]
        have restAgree := rest.agree _ _ (first.agree covers agree object) tuple (by simpa using sameLength)
        exact fun name isName => restAgree name (sameScope isName)

theorem RenamedAll.sameTuples {parameters unique : List TypedObject} {next : Naming}
    (isRenamed : RenamedAll naming scope parameters unique next) (objectsByType : String → List String) :
    (unique.map fun parameter => objectsByType parameter.typeName) =
      parameters.map fun parameter => objectsByType parameter.typeName := by
  have same := congrArg (List.map objectsByType) isRenamed.typeNames
  rwa [List.map_map, List.map_map] at same

end Naming

theorem length_of_mem {objects : List (List String)} {tuple : List String}
    (isTuple : tuple ∈ cartesianProduct objects) : tuple.length = objects.length := by
  induction objects generalizing tuple with
  | nil =>
    rw [cartesianProduct, List.mem_singleton] at isTuple
    subst isTuple
    rfl
  | cons first objects inductionHypothesis =>
    rw [cartesianProduct, List.mem_flatMap] at isTuple
    obtain ⟨rest, isRest, isTuple⟩ := isTuple
    obtain ⟨item, _, rfl⟩ := List.mem_map.mp isTuple
    rw [List.length_cons, inductionHypothesis isRest, List.length_cons]

/-! ## Conditions -/

mutual
/-- Every variable is in scope or quantified. -/
def Condition.Declared (scope : List String) : Condition → Prop
  | .truth | .falsity => True
  | .test _ args => argumentNames args ⊆ scope
  | .conjunction parts | .disjunction parts => DeclaredEach scope parts
  | .existential parameters part => part.Declared (parameters.map TypedObject.name ++ scope)

def DeclaredEach (scope : List String) : List Condition → Prop
  | [] => True
  | part :: parts => part.Declared scope ∧ DeclaredEach scope parts
end

theorem argumentNames_rename (renamings : Mapping) (args : List Argument) :
    argumentNames (args.map (Argument.rename renamings)) = (argumentNames args).map renamings := by
  induction args with
  | nil => rfl
  | cons argument args inductionHypothesis =>
    rw [argumentNames] at inductionHypothesis ⊢
    rw [List.map_cons, List.flatMap_cons, inductionHypothesis]
    cases argument <;> simp [argumentNames, Argument.rename, Argument.names]

theorem values_rename {naming : Naming} {scope : List String} {mapping renamed : Mapping} {args : List Argument}
    (agree : naming.Agree scope mapping renamed) (declared : argumentNames args ⊆ scope) :
    (args.map (Argument.rename naming.renamings)).map (Argument.value renamed) =
      args.map (Argument.value mapping) := by
  rw [List.map_map]
  apply List.map_congr_left
  intro argument isArgument
  cases argument with
  | constant name => rfl
  | «variable» name =>
    exact agree name (declared (List.mem_flatMap.mpr ⟨_, isArgument, List.mem_singleton_self name⟩))

namespace Naming

variable {naming : Naming} {scope : List String}

/-- A condition whose quantified variables are new and differ. -/
structure Uniquified (naming : Naming) (scope : List String) (condition : Condition)
    (result : Condition × List TypedObject) : Prop where
  typeMap : result.2.map TypedObject.name = naming.names ++ result.1.binders
  nodup : naming.names.Nodup → (result.2.map TypedObject.name).Nodup
  names : ∀ name ∈ result.1.names, name ∈ result.1.binders ∨ name ∈ scope.map naming.renamings
  apart : naming.names.Nodup → result.1.Apart
  ways : ∀ world mapping renamed, naming.Agree scope mapping renamed →
    result.1.ways world renamed = condition.ways world mapping

structure UniquifiedEach (naming : Naming) (scope : List String) (parts : List Condition)
    (result : List Condition × List TypedObject) : Prop where
  typeMap : result.2.map TypedObject.name = naming.names ++ bindersOfEach result.1
  nodup : naming.names.Nodup → (result.2.map TypedObject.name).Nodup
  names : ∀ part ∈ result.1, ∀ name ∈ part.names, name ∈ part.binders ∨ name ∈ scope.map naming.renamings
  apart : naming.names.Nodup → (∀ part ∈ result.1, part.Apart) ∧ result.1.Pairwise Condition.Separate
  ways : ∀ world mapping renamed, naming.Agree scope mapping renamed →
    result.1.map (Condition.ways world renamed) = parts.map (Condition.ways world mapping)

theorem UniquifiedEach.inNames {parts : List Condition} {result : List Condition × List TypedObject}
    (each : UniquifiedEach naming scope parts result) :
    ∀ name ∈ namesOfEach result.1, name ∈ bindersOfEach result.1 ∨ name ∈ scope.map naming.renamings := by
  intro name isName
  obtain ⟨part, isPart, isName⟩ := mem_namesOfEach.mp isName
  exact (each.names part isPart name isName).imp_left fun isBinder => mem_bindersOfEach.mpr ⟨part, isPart, isBinder⟩

theorem uniquifiedEach {parts : List Condition} (covers : naming.Covers scope)
    (inductionHypothesis : ∀ part ∈ parts, ∀ naming : Naming, naming.Covers scope →
      Uniquified naming scope part (part.uniquify naming)) :
    UniquifiedEach naming scope parts (uniquifyEach naming parts) := by
  induction parts generalizing naming with
  | nil => exact ⟨by simp [uniquifyEach, bindersOfEach, Naming.names], id, by simp [uniquifyEach],
      by simp [uniquifyEach], fun _ _ _ _ => rfl⟩
  | cons part parts ofRest =>
    rw [List.forall_mem_cons] at inductionHypothesis
    have first := inductionHypothesis.1 naming covers
    have extended : naming.names ⊆ (part.uniquify naming).2.map TypedObject.name := by
      rw [first.typeMap]
      exact List.subset_append_left _ _
    have rest := ofRest (covers.extend extended) inductionHypothesis.2
    have known : ∀ name ∈ scope.map naming.renamings, name ∈ naming.names := by
      rw [List.forall_mem_map]
      exact covers.known
    rw [uniquifyEach]
    have restTypeMap := rest.typeMap
    rw [Naming.names, first.typeMap, List.append_assoc] at restTypeMap
    refine ⟨restTypeMap, fun nodup => rest.nodup (first.nodup nodup), ?_, fun nodup => ?_, ?_⟩
    · exact List.forall_mem_cons.mpr ⟨first.names, rest.names⟩
    · have allNodup := rest.nodup (first.nodup nodup)
      have restApart := rest.apart (first.nodup nodup)
      rw [restTypeMap, List.nodup_append'] at allNodup
      obtain ⟨_, bindersNodup, newBinders⟩ := allNodup
      have firstNew := (List.disjoint_append_right.mp newBinders).1
      have restNew := (List.disjoint_append_right.mp newBinders).2
      have different := List.disjoint_of_nodup_append bindersNodup
      refine ⟨List.forall_mem_cons.mpr ⟨first.apart nodup, restApart.1⟩, List.pairwise_cons.mpr ⟨?_, restApart.2⟩⟩
      intro other isOther
      have inRest := Condition.binders_part isOther
      constructor
      · intro name isBinder isName
        obtain isOtherBinder | isKnown := rest.names other isOther name isName
        · exact different isBinder (inRest isOtherBinder)
        · exact firstNew (known name isKnown) isBinder
      · intro name isBinder isName
        obtain isFirstBinder | isKnown := first.names name isName
        · exact different isFirstBinder (inRest isBinder)
        · exact restNew (known name isKnown) (inRest isBinder)
    · intro world mapping renamed agree
      rw [List.map_cons, List.map_cons, first.ways world mapping renamed agree, rest.ways world mapping renamed agree]

theorem declaredEach_iff {parts : List Condition} :
    DeclaredEach scope parts ↔ ∀ part ∈ parts, part.Declared scope := by
  induction parts with
  | nil => simp [DeclaredEach]
  | cons part parts inductionHypothesis => rw [DeclaredEach, inductionHypothesis, List.forall_mem_cons]

theorem uniquified {condition : Condition} (covers : naming.Covers scope) (declared : condition.Declared scope) :
    Uniquified naming scope condition (condition.uniquify naming) := by
  induction condition using Condition.induct generalizing naming scope with
  | truth => exact ⟨by simp [Condition.uniquify, Condition.binders, Naming.names], id,
      by simp [Condition.uniquify, Condition.names], fun _ => .truth, fun _ _ _ _ => rfl⟩
  | falsity => exact ⟨by simp [Condition.uniquify, Condition.binders, Naming.names], id,
      by simp [Condition.uniquify, Condition.names], fun _ => .falsity, fun _ _ _ _ => rfl⟩
  | test kind args =>
    rw [Condition.Declared] at declared
    rw [Condition.uniquify]
    refine ⟨by simp [Condition.binders, Naming.names], id, fun name isName => .inr ?_, fun _ => .test _ _, ?_⟩
    · rw [Condition.names, argumentNames_rename] at isName
      exact List.map_subset _ declared isName
    · intro world mapping renamed agree
      rw [Condition.ways, Condition.ways, values_rename agree declared]
  | conjunction parts inductionHypothesis =>
    rw [Condition.Declared, declaredEach_iff] at declared
    have each := uniquifiedEach covers fun part isPart naming covers =>
      inductionHypothesis part isPart covers (declared part isPart)
    rw [Condition.uniquify]
    refine ⟨each.typeMap, each.nodup, each.inNames, fun nodup => ?_, fun world mapping renamed agree => ?_⟩
    · exact .conjunction (each.apart nodup).1 (each.apart nodup).2
    · rw [Condition.ways_conjunction, Condition.ways_conjunction, each.ways world mapping renamed agree]
  | disjunction parts inductionHypothesis =>
    rw [Condition.Declared, declaredEach_iff] at declared
    have each := uniquifiedEach covers fun part isPart naming covers =>
      inductionHypothesis part isPart covers (declared part isPart)
    rw [Condition.uniquify]
    refine ⟨each.typeMap, each.nodup, each.inNames, fun nodup => ?_, fun world mapping renamed agree => ?_⟩
    · exact .disjunction (each.apart nodup).1
    · rw [Condition.ways_disjunction, Condition.ways_disjunction, each.ways world mapping renamed agree]
  | existential parameters part inductionHypothesis =>
    rw [Condition.Declared] at declared
    have isRenamed := renamedAll_uniquifyParameters parameters covers
    have inner := inductionHypothesis isRenamed.covers declared
    rw [Condition.uniquify]
    refine ⟨?_, fun nodup => inner.nodup (isRenamed.nodup nodup), ?_, fun nodup => ?_, ?_⟩
    · rw [inner.typeMap, isRenamed.names, Condition.binders, List.append_assoc]
    · intro name isName
      rw [Condition.names, List.mem_append] at isName
      rw [Condition.binders, List.mem_append]
      obtain isParameter | isInner := isName
      · exact .inl (.inl isParameter)
      · obtain isBinder | isKnown := inner.names name isInner
        · exact .inl (.inr isBinder)
        · obtain ⟨source, isSource, rfl⟩ := List.mem_map.mp isKnown
          by_cases isParameter : source ∈ parameters.map TypedObject.name
          case pos => exact .inl (.inl (isRenamed.quantified source isParameter))
          case neg =>
            rw [isRenamed.others source isParameter]
            exact .inr (List.mem_map_of_mem ((List.mem_append.mp isSource).resolve_left isParameter))
    · exact .existential (inner.apart (isRenamed.nodup nodup))
    · intro world mapping renamed agree
      rw [Condition.ways_existential, Condition.ways_existential, assignments, assignments, List.map_map, List.map_map,
        isRenamed.sameTuples]
      apply congrArg List.sum
      apply List.map_congr_left
      intro tuple isTuple
      exact inner.ways world _ _ (isRenamed.agree mapping renamed agree tuple (by simpa using length_of_mem isTuple))

end Naming

theorem uniquifyEach_fst {naming : Naming} (parts : List Condition) :
    ∀ part ∈ (uniquifyEach naming parts).1, ∃ source ∈ parts, ∃ naming, part = (source.uniquify naming).1 := by
  induction parts generalizing naming with
  | nil => simp [uniquifyEach]
  | cons part parts inductionHypothesis =>
    rw [uniquifyEach, List.forall_mem_cons]
    refine ⟨⟨part, List.mem_cons_self, naming, rfl⟩, fun other isOther => ?_⟩
    obtain ⟨source, isSource, isResult⟩ := inductionHypothesis other isOther
    exact ⟨source, List.mem_cons_of_mem _ isSource, isResult⟩

theorem length_uniquifyEach {naming : Naming} (parts : List Condition) :
    (uniquifyEach naming parts).1.length = parts.length := by
  induction parts generalizing naming with
  | nil => rfl
  | cons part parts inductionHypothesis => rw [uniquifyEach, List.length_cons, inductionHypothesis, List.length_cons]

theorem Condition.Simple.uniquify {condition : Condition} (simple : Simple condition) (naming : Naming) :
    Simple (condition.uniquify naming).1 := by
  induction simple generalizing naming with
  | test kind args => exact .test _ _
  | @conjunction parts several _ flat inductionHypothesis =>
    rw [Condition.uniquify]
    refine .conjunction (by rwa [length_uniquifyEach]) ?_ ?_
    · intro part isPart
      obtain ⟨source, isSource, naming, rfl⟩ := uniquifyEach_fst parts part isPart
      exact inductionHypothesis source isSource naming
    · intro part isPart inner
      obtain ⟨source, isSource, naming, rfl⟩ := uniquifyEach_fst parts part isPart
      have notConjunction := flat source isSource
      cases source <;> simp [Condition.uniquify] at notConjunction ⊢
  | @disjunction parts several _ flat inductionHypothesis =>
    rw [Condition.uniquify]
    refine .disjunction (by rwa [length_uniquifyEach]) ?_ ?_
    · intro part isPart
      obtain ⟨source, isSource, naming, rfl⟩ := uniquifyEach_fst parts part isPart
      exact inductionHypothesis source isSource naming
    · intro part isPart inner
      obtain ⟨source, isSource, naming, rfl⟩ := uniquifyEach_fst parts part isPart
      have notDisjunction := flat source isSource
      cases source <;> simp [Condition.uniquify] at notDisjunction ⊢
  | existential _ inductionHypothesis => exact .existential (inductionHypothesis _)

theorem Condition.Normal.uniquify {condition : Condition} (normal : Normal condition) (naming : Naming) :
    Normal (condition.uniquify naming).1 := by
  obtain rfl | rfl | simple := normal
  · exact .inl rfl
  · exact .inr (.inl rfl)
  · exact .inr (.inr (simple.uniquify naming))

/-! ## Effects -/

/-- The variables of an effect are in scope or quantified. -/
structure Effect.Declared (scope : List String) (effect : Effect) : Prop where
  condition : effect.condition.Declared (effect.parameters.map TypedObject.name ++ scope)
  peffect : effect.peffect.names ⊆ effect.parameters.map TypedObject.name ++ scope

/-- An effect whose condition may be split. -/
structure Effect.Ready (effect : Effect) : Prop where
  normal : effect.condition.Normal
  apart : effect.condition.Apart
  fresh : effect.condition.binders.Disjoint effect.peffect.names

theorem PrimitiveEffect.names_rename (renamings : Mapping) (effect : PrimitiveEffect) :
    (effect.rename renamings).names = effect.names.map renamings := by
  cases effect <;> simp [PrimitiveEffect.rename, PrimitiveEffect.names, argumentNames_rename]

theorem PrimitiveEffect.ground_rename {naming : Naming} {scope : List String} {mapping renamed : Mapping}
    {effect : PrimitiveEffect} (agree : naming.Agree scope mapping renamed) (declared : effect.names ⊆ scope) :
    (effect.rename naming.renamings).ground renamed = effect.ground mapping := by
  cases effect with
  | literal negated predicate args => rfl
  | assignment update =>
    obtain ⟨fluentDeclared, expressionDeclared⟩ := List.append_subset.mp declared
    simp only [PrimitiveEffect.rename, PrimitiveEffect.ground, Assignment.ground, values_rename agree fluentDeclared,
      values_rename agree expressionDeclared]

section Effects

variable {scope : List String} {typeMap : List TypedObject}

/-- An effect with unique variables has the same updates. -/
theorem Effect.uniquify_spec {effect : Effect} (nodup : (typeMap.map TypedObject.name).Nodup)
    (known : scope ⊆ typeMap.map TypedObject.name) (declared : effect.Declared scope)
    (normal : effect.condition.Normal) :
    (effect.uniquify typeMap).1.Ready ∧ ((effect.uniquify typeMap).2.map TypedObject.name).Nodup ∧
      typeMap.map TypedObject.name ⊆ (effect.uniquify typeMap).2.map TypedObject.name ∧
      ∀ world mapping, (effect.uniquify typeMap).1.updates world mapping = effect.updates world mapping := by
  have covers : Naming.Covers ⟨typeMap, id⟩ scope := ⟨fun _ _ => rfl, fun name isName => known isName⟩
  have isRenamed := Naming.renamedAll_uniquifyParameters effect.parameters covers
  have condition := Naming.uniquified isRenamed.covers declared.condition
  have parametersNodup := isRenamed.nodup nodup
  rw [Effect.uniquify]
  have allNodup := condition.nodup parametersNodup
  refine ⟨⟨normal.uniquify _, condition.apart parametersNodup, ?_⟩, allNodup, ?_, fun world mapping => ?_⟩
  · intro name isBinder isName
    rw [condition.typeMap] at allNodup
    rw [PrimitiveEffect.names_rename] at isName
    obtain ⟨source, isSource, rfl⟩ := List.mem_map.mp isName
    exact List.disjoint_of_nodup_append allNodup (isRenamed.covers.known source (declared.peffect isSource)) isBinder
  · rw [condition.typeMap, isRenamed.names, List.append_assoc]
    exact List.subset_append_left _ _
  · simp only [Effect.updates, assignments, List.flatMap_map, isRenamed.sameTuples]
    apply List.flatMap_congr
    intro tuple isTuple
    have agree := isRenamed.agree mapping mapping (fun _ _ => rfl) tuple (by simpa using length_of_mem isTuple)
    rw [PrimitiveEffect.ground_rename agree declared.peffect, condition.ways world _ _ agree]

theorem uniquifyEffects_spec {effects : List Effect} (nodup : (typeMap.map TypedObject.name).Nodup)
    (known : scope ⊆ typeMap.map TypedObject.name) (declared : ∀ effect ∈ effects, effect.Declared scope)
    (normal : ∀ effect ∈ effects, effect.condition.Normal) :
    (∀ effect ∈ uniquifyEffects typeMap effects, effect.Ready) ∧
      ∀ world mapping, (uniquifyEffects typeMap effects).flatMap (Effect.updates world mapping) =
        effects.flatMap (Effect.updates world mapping) := by
  induction effects generalizing typeMap with
  | nil => simp [uniquifyEffects]
  | cons effect effects inductionHypothesis =>
    rw [List.forall_mem_cons] at declared normal
    obtain ⟨ready, nextNodup, subset, sameUpdates⟩ := Effect.uniquify_spec nodup known declared.1 normal.1
    obtain ⟨restReady, restUpdates⟩ :=
      inductionHypothesis nextNodup (List.Subset.trans known subset) declared.2 normal.2
    rw [uniquifyEffects]
    refine ⟨List.forall_mem_cons.mpr ⟨ready, restReady⟩, fun world mapping => ?_⟩
    rw [List.flatMap_cons, List.flatMap_cons, sameUpdates, restUpdates]

end Effects

end CutPlan.Translate.Pddl
