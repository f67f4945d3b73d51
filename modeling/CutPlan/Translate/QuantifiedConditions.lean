import Mathlib.Algebra.BigOperators.Group.List.Basic
import Mathlib.Algebra.BigOperators.Ring.List
import Mathlib.Algebra.Order.Ring.Nat
import Mathlib.Data.Multiset.Bind
import Mathlib.Data.Set.List
import Mathlib.Tactic.Ring

/-! # Conditions with quantifiers

The conditions of effects, when they hold, and in how many ways: a way is a choice of a disjunct for every
disjunction and of objects for every existential quantifier.  A universal condition is a test here, as it has
been replaced by a derived predicate before conditions are split.
-/

namespace CutPlan.Translate.Pddl

structure TypedObject where
  name : String
  typeName : String
  deriving DecidableEq, Repr

inductive Argument where
  | variable (name : String)
  | constant (name : String)
  deriving DecidableEq, Repr

/-- What a condition asks of its arguments.  Comparisons are named by their comparator and expressions. -/
inductive Test where
  | literal (negated : Bool) (predicate : String)
  | comparison (negated : Bool) (comparison : String)
  deriving DecidableEq, Repr

inductive Condition where
  | truth
  | falsity
  | test (test : Test) (args : List Argument)
  | conjunction (parts : List Condition)
  | disjunction (parts : List Condition)
  | existential (parameters : List TypedObject) (part : Condition)
  deriving Repr

mutual
def Condition.decEq : (first second : Condition) → Decidable (first = second)
  | .truth, .truth | .falsity, .falsity => isTrue rfl
  | .test kind args, .test kind' args' => decidable_of_iff (kind = kind' ∧ args = args') (by simp)
  | .conjunction parts, .conjunction parts' | .disjunction parts, .disjunction parts' =>
    have := decEqEach parts parts'
    decidable_of_iff (parts = parts') (by simp)
  | .existential parameters part, .existential parameters' part' =>
    have := part.decEq part'
    decidable_of_iff (parameters = parameters' ∧ part = part') (by simp)
  | .truth, .falsity | .truth, .test _ _ | .truth, .conjunction _ | .truth, .disjunction _ | .truth, .existential _ _
  | .falsity, .truth | .falsity, .test _ _ | .falsity, .conjunction _ | .falsity, .disjunction _
  | .falsity, .existential _ _ | .test _ _, .truth | .test _ _, .falsity | .test _ _, .conjunction _
  | .test _ _, .disjunction _ | .test _ _, .existential _ _ | .conjunction _, .truth | .conjunction _, .falsity
  | .conjunction _, .test _ _ | .conjunction _, .disjunction _ | .conjunction _, .existential _ _
  | .disjunction _, .truth | .disjunction _, .falsity | .disjunction _, .test _ _ | .disjunction _, .conjunction _
  | .disjunction _, .existential _ _ | .existential _ _, .truth | .existential _ _, .falsity
  | .existential _ _, .test _ _ | .existential _ _, .conjunction _ | .existential _ _, .disjunction _ =>
    isFalse (by simp)

def decEqEach : (first second : List Condition) → Decidable (first = second)
  | [], [] => isTrue rfl
  | [], _ :: _ | _ :: _, [] => isFalse (by simp)
  | part :: parts, part' :: parts' =>
    have := part.decEq part'
    have := decEqEach parts parts'
    decidable_of_iff (part = part' ∧ parts = parts') (by simp)
end

instance : DecidableEq Condition := Condition.decEq

abbrev Mapping := String → String

def Argument.value (mapping : Mapping) : Argument → String
  | .variable name => mapping name
  | .constant name => name

def Argument.rename (renamings : Mapping) : Argument → Argument
  | .variable name => .variable (renamings name)
  | .constant name => .constant name

def Argument.names : Argument → List String
  | .variable name => [name]
  | .constant _ => []

def argumentNames (args : List Argument) : List String := args.flatMap Argument.names

theorem Condition.induct {property : Condition → Prop} (truth : property .truth) (falsity : property .falsity)
    (test : ∀ test args, property (.test test args))
    (conjunction : ∀ parts, (∀ part ∈ parts, property part) → property (.conjunction parts))
    (disjunction : ∀ parts, (∀ part ∈ parts, property part) → property (.disjunction parts))
    (existential : ∀ parameters part, property part → property (.existential parameters part)) :
    ∀ condition, property condition := by
  intro condition
  refine Condition.rec truth falsity test conjunction disjunction existential ?_ ?_ condition
    (motive_2 := fun parts => ∀ part ∈ parts, property part)
  · simp
  · intro head tail ofHead ofTail
    exact List.forall_mem_cons.mpr ⟨ofHead, ofTail⟩

/-! ## Objects for parameters -/

def cartesianProduct : List (List String) → List (List String)
  | [] => [[]]
  | first :: rest => (cartesianProduct rest).flatMap fun tuple => first.map fun item => item :: tuple

def assign (mapping : Mapping) : List TypedObject → List String → Mapping
  | parameter :: parameters, object :: tuple => assign (Function.update mapping parameter.name object) parameters tuple
  | _, _ => mapping

/-- The mappings of the instances for some parameters. -/
def assignments (objectsByType : String → List String) (parameters : List TypedObject) (mapping : Mapping) :
    List Mapping :=
  (cartesianProduct (parameters.map fun parameter => objectsByType parameter.typeName)).map (assign mapping parameters)

/-- The objects of every type and a state, by the ground tests that hold in it. -/
structure World where
  objectsByType : String → List String
  holdsTest : Test → List String → Bool

mutual
def Condition.holds (world : World) (mapping : Mapping) : Condition → Bool
  | .truth => true
  | .falsity => false
  | .test test args => world.holdsTest test (args.map (Argument.value mapping))
  | .conjunction parts => (holdsEach world mapping parts).all id
  | .disjunction parts => (holdsEach world mapping parts).any id
  | .existential parameters part =>
    (assignments world.objectsByType parameters mapping).any fun mapping => part.holds world mapping

def holdsEach (world : World) (mapping : Mapping) : List Condition → List Bool
  | [] => []
  | part :: parts => part.holds world mapping :: holdsEach world mapping parts
end

mutual
/-- The number of ways in which a condition holds. -/
def Condition.ways (world : World) (mapping : Mapping) : Condition → ℕ
  | .truth => 1
  | .falsity => 0
  | .test test args => (world.holdsTest test (args.map (Argument.value mapping))).toNat
  | .conjunction parts => (waysEach world mapping parts).prod
  | .disjunction parts => (waysEach world mapping parts).sum
  | .existential parameters part =>
    ((assignments world.objectsByType parameters mapping).map fun mapping => part.ways world mapping).sum

def waysEach (world : World) (mapping : Mapping) : List Condition → List ℕ
  | [] => []
  | part :: parts => part.ways world mapping :: waysEach world mapping parts
end

mutual
/-- The names of all variables. -/
def Condition.names : Condition → List String
  | .truth | .falsity => []
  | .test _ args => argumentNames args
  | .conjunction parts | .disjunction parts => namesOfEach parts
  | .existential parameters part => parameters.map TypedObject.name ++ part.names

def namesOfEach : List Condition → List String
  | [] => []
  | part :: parts => part.names ++ namesOfEach parts
end

mutual
/-- The names of the quantified variables. -/
def Condition.binders : Condition → List String
  | .truth | .falsity | .test _ _ => []
  | .conjunction parts | .disjunction parts => bindersOfEach parts
  | .existential parameters part => parameters.map TypedObject.name ++ part.binders

def bindersOfEach : List Condition → List String
  | [] => []
  | part :: parts => part.binders ++ bindersOfEach parts
end

theorem namesOfEach_eq (parts : List Condition) : namesOfEach parts = parts.flatMap Condition.names := by
  induction parts with
  | nil => rfl
  | cons part parts inductionHypothesis => rw [namesOfEach, inductionHypothesis, List.flatMap_cons]

theorem bindersOfEach_eq (parts : List Condition) : bindersOfEach parts = parts.flatMap Condition.binders := by
  induction parts with
  | nil => rfl
  | cons part parts inductionHypothesis => rw [bindersOfEach, inductionHypothesis, List.flatMap_cons]

@[simp] theorem mem_namesOfEach {parts : List Condition} {name : String} :
    name ∈ namesOfEach parts ↔ ∃ part ∈ parts, name ∈ part.names := by
  rw [namesOfEach_eq, List.mem_flatMap]

@[simp] theorem mem_bindersOfEach {parts : List Condition} {name : String} :
    name ∈ bindersOfEach parts ↔ ∃ part ∈ parts, name ∈ part.binders := by
  rw [bindersOfEach_eq, List.mem_flatMap]

theorem argument_value_congr {args : List Argument} {mapping other : Mapping}
    (agree : ∀ name ∈ argumentNames args, mapping name = other name) :
    args.map (Argument.value mapping) = args.map (Argument.value other) := by
  apply List.map_congr_left
  intro argument isArgument
  cases argument with
  | constant name => rfl
  | «variable» name =>
    exact agree name (List.mem_flatMap.mpr ⟨_, isArgument, List.mem_singleton_self name⟩)

/-! ## Assignments -/

theorem assign_of_notMem {parameters : List TypedObject} {name : String}
    (notParameter : name ∉ parameters.map TypedObject.name) (mapping : Mapping) (tuple : List String) :
    assign mapping parameters tuple name = mapping name := by
  induction parameters generalizing mapping tuple with
  | nil => rfl
  | cons parameter parameters inductionHypothesis =>
    rw [List.map_cons, List.mem_cons, not_or] at notParameter
    cases tuple with
    | nil => rfl
    | cons object tuple =>
      rw [assign, inductionHypothesis notParameter.2, Function.update_of_ne notParameter.1]

theorem assign_congr {parameters : List TypedObject} {mapping other : Mapping} {names : List String}
    (agree : ∀ name ∈ names, mapping name = other name) (tuple : List String) :
    ∀ name ∈ names, assign mapping parameters tuple name = assign other parameters tuple name := by
  induction parameters generalizing mapping other tuple with
  | nil => exact agree
  | cons parameter parameters inductionHypothesis =>
    cases tuple with
    | nil => exact agree
    | cons object tuple =>
      apply inductionHypothesis
      intro name isName
      rw [Function.update_apply, Function.update_apply, agree name isName]

section Assignments

variable {objectsByType : String → List String}

@[simp] theorem assignments_nil (mapping : Mapping) : assignments objectsByType [] mapping = [mapping] := rfl

/-- The objects of the first parameter may be chosen first. -/
theorem assignments_cons (parameter : TypedObject) (parameters : List TypedObject) (mapping : Mapping) :
    (assignments objectsByType (parameter :: parameters) mapping).Perm
      ((objectsByType parameter.typeName).flatMap fun object =>
        assignments objectsByType parameters (Function.update mapping parameter.name object)) := by
  rw [← Multiset.coe_eq_coe, ← Multiset.coe_bind]
  simp only [assignments, List.map_cons, cartesianProduct, List.map_flatMap, List.map_map, ← Multiset.coe_bind,
    ← Multiset.map_coe, Function.comp_def, assign]
  exact Multiset.bind_map_comm _ _

theorem assignments_append (parameters added : List TypedObject) (mapping : Mapping) :
    (assignments objectsByType (parameters ++ added) mapping).Perm
      ((assignments objectsByType parameters mapping).flatMap (assignments objectsByType added)) := by
  induction parameters generalizing mapping with
  | nil => simp
  | cons parameter parameters inductionHypothesis =>
    calc assignments objectsByType (parameter :: (parameters ++ added)) mapping
        |>.Perm ((objectsByType parameter.typeName).flatMap fun object =>
          assignments objectsByType (parameters ++ added) (Function.update mapping parameter.name object)) :=
          assignments_cons ..
      _ |>.Perm ((objectsByType parameter.typeName).flatMap fun object =>
          (assignments objectsByType parameters (Function.update mapping parameter.name object)).flatMap
            (assignments objectsByType added)) :=
          List.Perm.flatMap_left _ fun object _ => inductionHypothesis _
      _ |>.Perm ((assignments objectsByType (parameter :: parameters) mapping).flatMap
            (assignments objectsByType added)) := by
          rw [← List.flatMap_assoc]
          exact (assignments_cons ..).symm.flatMap_right _

end Assignments

/-! ## Ways -/

theorem sum_flatMap {α : Type} (items : List α) (numbers : α → List ℕ) :
    (items.flatMap numbers).sum = (items.map fun item => (numbers item).sum).sum := by
  rw [List.flatMap_def, List.sum_flatten, List.map_map]
  rfl

section Ways

variable {world : World}

theorem waysEach_eq (mapping : Mapping) (parts : List Condition) :
    waysEach world mapping parts = parts.map (Condition.ways world mapping) := by
  induction parts with
  | nil => rfl
  | cons part parts inductionHypothesis => rw [waysEach, inductionHypothesis, List.map_cons]

theorem Condition.ways_congr {condition : Condition} {mapping other : Mapping}
    (agree : ∀ name ∈ condition.names, mapping name = other name) :
    condition.ways world mapping = condition.ways world other := by
  induction condition using Condition.induct generalizing mapping other with
  | truth => rfl
  | falsity => rfl
  | test test args => rw [Condition.ways, Condition.ways, argument_value_congr agree]
  | conjunction parts inductionHypothesis | disjunction parts inductionHypothesis =>
    rw [Condition.ways, Condition.ways, waysEach_eq, waysEach_eq]
    congr 1
    apply List.map_congr_left
    intro part isPart
    exact inductionHypothesis part isPart fun name isName => agree name (mem_namesOfEach.mpr ⟨part, isPart, isName⟩)
  | existential parameters part inductionHypothesis =>
    simp only [Condition.ways, assignments, List.map_map]
    congr 1
    apply List.map_congr_left
    intro tuple _
    exact inductionHypothesis fun name isName => assign_congr agree tuple name (List.mem_append_right _ isName)

end Ways

end CutPlan.Translate.Pddl
