import CutPlan.Search.GlobalOperator
import Mathlib

/-! # The successor generator

A tree of switches over the variables of the task.  An operator waits in the queue of a subtree with the
conditions that no switch above has tested.
-/

namespace CutPlan.Search

open CutPlan.Lib CutPlan.Sas

/-- An operator in a queue, with what `next_condition_by_op` has left of its conditions. -/
structure QueuedOperator (O : Type) where
  op : O
  conditions : List Condition

namespace QueuedOperator

variable {O : Type}

/-- The conditions on the variable of the switch are passed over together. -/
def advance (switchVar : ℕ) (queued : QueuedOperator O) : QueuedOperator O :=
  { queued with conditions := queued.conditions.dropWhile fun condition => condition.var = switchVar }

/-- The value that the next condition needs, if it is on the variable of the switch. -/
def testedValue (switchVar : ℕ) (queued : QueuedOperator O) : Option ℤ :=
  match queued.conditions with
  | [] => none
  | condition :: _ => if condition.var = switchVar then some condition.val else none

def isImmediate (queued : QueuedOperator O) : Bool := queued.conditions.isEmpty

def isDefault (switchVar : ℕ) (queued : QueuedOperator O) : Bool :=
  !queued.isImmediate && (queued.testedValue switchVar).isNone

def holds (values : ℕ → ℤ) (queued : QueuedOperator O) : Bool := Condition.allHold queued.conditions values

end QueuedOperator

/-- `GeneratorSwitch`, `GeneratorLeaf` and `GeneratorEmpty`. -/
inductive SuccessorGenerator (O : Type) where
  | switch (switchVar : ℕ) (immediateOperators : List O) (generatorForValue : ℤ → SuccessorGenerator O)
      (defaultGenerator : SuccessorGenerator O)
  | leaf (applicableOperators : List O)
  | empty

namespace SuccessorGenerator

variable {O : Type}

def generateApplicableOps (values : ℕ → ℤ) : SuccessorGenerator O → List O
  | switch switchVar immediateOperators generatorForValue defaultGenerator =>
    immediateOperators ++ (generatorForValue (values switchVar)).generateApplicableOps values ++
      defaultGenerator.generateApplicableOps values
  | leaf applicableOperators => applicableOperators
  | empty => []

/-- `construct_recursive`, from the variable of the first domain on. -/
def constructRecursive (switchVar : ℕ) (domains : List ℤ) (queue : List (QueuedOperator O)) :
    SuccessorGenerator O :=
  if queue.isEmpty then empty
  else
    match domains with
    | [] => leaf (queue.map (·.op))
    | domain :: domains =>
      let immediate := (queue.filter (·.isImmediate)).map (·.op)
      let default := queue.filter (·.isDefault switchVar)
      if queue.all (·.isImmediate) then leaf immediate
      else if queue.all (·.isDefault switchVar) then
        -- no operator depends on the variable
        constructRecursive (switchVar + 1) domains default
      else
        switch switchVar immediate
          (fun value =>
            if 0 ≤ value ∧ value < domain then
              constructRecursive (switchVar + 1) domains
                ((queue.filter (·.testedValue switchVar = some value)).map (·.advance switchVar))
            else empty)
          (constructRecursive (switchVar + 1) domains default)
  termination_by structural domains

/-- Conditions are ordered by their variables. -/
def ofOperators (domains : List ℤ) (operators : List GlobalOperator) : SuccessorGenerator GlobalOperator :=
  constructRecursive 0 domains (operators.map fun op =>
    ⟨op, op.preconditions.mergeSort fun first second => first.var ≤ second.var⟩)

end SuccessorGenerator

/-! ## Queues -/

/-- No variable has two values in the conditions, and the values are in the domains. -/
structure ProperConditions (domains : List ℤ) (conditions : List Condition) : Prop where
  consistent : ∀ first ∈ conditions, ∀ second ∈ conditions, first.var = second.var → first.val = second.val
  inDomain : ∀ condition ∈ conditions, ∃ domain, domains[condition.var]? = some domain ∧
    0 ≤ condition.val ∧ condition.val < domain

namespace QueuedOperator

variable {O : Type} {queued : QueuedOperator O} {switchVar : ℕ} {domains : List ℤ} {values : ℕ → ℤ}

/-- The conditions left are in order, and on the variables from the next switch on. -/
structure Waits (allDomains : List ℤ) (switchVar : ℕ) (queued : QueuedOperator O) : Prop where
  proper : ProperConditions allDomains queued.conditions
  ordered : queued.conditions.Pairwise fun first second => first.var ≤ second.var
  later : ∀ condition ∈ queued.conditions, switchVar ≤ condition.var

theorem holds_of_isImmediate (immediate : queued.isImmediate = true) : queued.holds values = true := by
  simp only [isImmediate, List.isEmpty_iff] at immediate
  simp [holds, Condition.allHold, immediate]

theorem not_isImmediate_of_testedValue {value : ℤ} (tested : queued.testedValue switchVar = some value) :
    queued.isImmediate = false := by
  cases conditions : queued.conditions with
  | nil => simp [testedValue, conditions] at tested
  | cons => simp [isImmediate, conditions]

/-- An operator is only looked for under the value that its condition needs. -/
theorem value_of_holds {value : ℤ} (tested : queued.testedValue switchVar = some value)
    (holds : queued.holds values = true) : value = values switchVar := by
  cases conditions : queued.conditions with
  | nil => simp [testedValue, conditions] at tested
  | cons condition rest =>
    simp only [testedValue, conditions, Option.ite_none_right_eq_some, Option.some.injEq] at tested
    obtain ⟨isSwitch, rfl⟩ := tested
    simp only [QueuedOperator.holds, Condition.allHold, conditions, List.all_cons, Bool.and_eq_true,
      decide_eq_true_eq, isSwitch] at holds
    exact holds.1.symm

/-- Under this value the conditions that are passed over hold. -/
theorem holds_advance (waits : queued.Waits domains switchVar)
    (tested : queued.testedValue switchVar = some (values switchVar)) :
    (queued.advance switchVar).holds values = queued.holds values := by
  obtain ⟨op, conditions⟩ := queued
  cases conditions with
  | nil => simp [testedValue] at tested
  | cons condition rest =>
    simp only [testedValue, Option.ite_none_right_eq_some, Option.some.injEq] at tested
    -- all of them are on the variable of the switch, so they need the value of the first
    have passed : ∀ other ∈ (condition :: rest).takeWhile (fun other => other.var = switchVar),
        values other.var = other.val := by
      intro other isOther
      have isSwitch : other.var = switchVar := by
        simpa using List.all_eq_true.mp List.all_takeWhile other isOther
      have member := (List.takeWhile_subset _) isOther
      rw [isSwitch, ← tested.2]
      exact waits.proper.consistent condition List.mem_cons_self other member (tested.1.trans isSwitch.symm)
    have split := List.takeWhile_append_dropWhile (p := fun other : Condition => other.var = switchVar)
      (l := condition :: rest)
    have passedHold : Condition.allHold
        ((condition :: rest).takeWhile fun other => other.var = switchVar) values = true :=
      List.all_eq_true.mpr fun other isOther => by simpa using passed other isOther
    calc Condition.allHold ((condition :: rest).dropWhile fun other => other.var = switchVar) values
        = Condition.allHold (((condition :: rest).takeWhile fun other => other.var = switchVar) ++
            (condition :: rest).dropWhile fun other => other.var = switchVar) values := by
          unfold Condition.allHold at passedHold ⊢
          rw [List.all_append, passedHold, Bool.true_and]
      _ = Condition.allHold (condition :: rest) values := by rw [split]

theorem Waits.advance (waits : queued.Waits domains switchVar) :
    (queued.advance switchVar).Waits domains (switchVar + 1) := by
  have sublist : (queued.advance switchVar).conditions.Sublist queued.conditions := List.dropWhile_sublist _
  refine ⟨⟨fun first isFirst second isSecond => waits.proper.consistent first (sublist.subset isFirst) second
    (sublist.subset isSecond), fun condition member => waits.proper.inDomain condition (sublist.subset member)⟩,
    waits.ordered.sublist sublist, ?_⟩
  -- the first condition that is kept is on a later variable, and the others are not before it
  intro condition member
  have later := waits.later condition (sublist.subset member)
  cases kept : (queued.advance switchVar).conditions with
  | nil => simp [kept] at member
  | cons first rest =>
    have isOther : first.var ≠ switchVar := by
      have notPassed := List.head?_dropWhile_not (fun condition : Condition => decide (condition.var = switchVar))
        queued.conditions
      change (queued.conditions.dropWhile _) = _ at kept
      rw [kept] at notPassed
      simpa using notPassed
    have firstLater := waits.later first (sublist.subset (kept ▸ List.mem_cons_self))
    have ordered := kept ▸ waits.ordered.sublist sublist
    rw [kept] at member
    obtain rfl | inRest := List.mem_cons.mp member
    · omega
    · have notBefore := (List.pairwise_cons.mp ordered).1 condition inRest
      omega

theorem Waits.default (waits : queued.Waits domains switchVar) (isDefault : queued.isDefault switchVar = true) :
    queued.Waits domains (switchVar + 1) := by
  refine ⟨waits.proper, waits.ordered, fun condition member => ?_⟩
  obtain ⟨op, conditions⟩ := queued
  cases conditions with
  | nil => cases member
  | cons first rest =>
    have isOther : first.var ≠ switchVar := by
      simpa [QueuedOperator.isDefault, isImmediate, testedValue] using isDefault
    have firstLater := waits.later first List.mem_cons_self
    obtain rfl | inRest := List.mem_cons.mp member
    · omega
    · have notBefore := (List.pairwise_cons.mp waits.ordered).1 condition inRest
      omega

/-- What holds is immediate, or under the value of the switch, or not tested by it. -/
theorem filter_holds_perm (values : ℕ → ℤ) (switchVar : ℕ) (queue : List (QueuedOperator O)) :
    (queue.filter (·.holds values)).Perm
      (queue.filter (·.isImmediate) ++
        (queue.filter (·.testedValue switchVar = some (values switchVar))).filter (·.holds values) ++
        (queue.filter (·.isDefault switchVar)).filter (·.holds values)) := by
  induction queue with
  | nil => simp
  | cons queued queue inductionHypothesis =>
    by_cases immediate : queued.isImmediate = true
    · have untested : queued.testedValue switchVar ≠ some (values switchVar) := fun tested => by
        simp [not_isImmediate_of_testedValue tested] at immediate
      simpa [immediate, untested, holds_of_isImmediate, isDefault] using inductionHypothesis
    · cases tested : queued.testedValue switchVar with
      | none =>
        by_cases isHeld : queued.holds values = true
        · simpa [immediate, tested, isDefault, isHeld] using
            (inductionHypothesis.cons queued).trans List.perm_middle.symm
        · simpa [immediate, tested, isDefault, isHeld] using inductionHypothesis
      | some value =>
        by_cases isHeld : queued.holds values = true
        · obtain rfl := value_of_holds tested isHeld
          simp only [immediate, tested, isDefault, isHeld, List.filter_cons, if_true, if_false, decide_true,
            Option.isNone_some, Bool.and_false, Bool.false_eq_true, List.append_assoc, List.cons_append]
          rw [List.append_assoc] at inductionHypothesis
          exact (inductionHypothesis.cons queued).trans List.perm_middle.symm
        · by_cases isValue : value = values switchVar
          · simpa [immediate, tested, isDefault, isHeld, isValue] using inductionHypothesis
          · simpa [immediate, tested, isDefault, isHeld, isValue] using inductionHypothesis

end QueuedOperator

/-! ## Applicable operators -/

namespace SuccessorGenerator

open QueuedOperator

variable {O : Type} {allDomains : List ℤ} {values : ℕ → ℤ} {switchVar : ℕ} {queue : List (QueuedOperator O)}

theorem holds_of_noDomain (waits : ∀ queued ∈ queue, queued.Waits allDomains switchVar)
    (isEnd : allDomains.drop switchVar = []) : ∀ queued ∈ queue, queued.holds values = true := by
  intro queued member
  refine List.all_eq_true.mpr fun condition isCondition => ?_
  obtain ⟨domain, isDomain, -⟩ := (waits queued member).proper.inDomain condition isCondition
  have later := (waits queued member).later condition isCondition
  have inRange := (List.getElem?_eq_some_iff.mp isDomain).1
  have atEnd := List.drop_eq_nil_iff.mp isEnd
  omega

/-- Operators are tested with the values in the domain only. -/
theorem testedValue_inDomain {domain value : ℤ} (isDomain : allDomains[switchVar]? = some domain)
    {queued : QueuedOperator O} (waits : queued.Waits allDomains switchVar)
    (tested : queued.testedValue switchVar = some value) : 0 ≤ value ∧ value < domain := by
  cases conditions : queued.conditions with
  | nil => simp [testedValue, conditions] at tested
  | cons condition rest =>
    simp only [testedValue, conditions, Option.ite_none_right_eq_some, Option.some.injEq] at tested
    obtain ⟨rfl, rfl⟩ := tested
    obtain ⟨domain', isDomain', inDomain⟩ :=
      waits.proper.inDomain condition (conditions ▸ List.mem_cons_self)
    rw [isDomain] at isDomain'
    cases isDomain'
    exact inDomain

theorem filter_advance (waits : ∀ queued ∈ queue, queued.Waits allDomains switchVar) :
    (((queue.filter (·.testedValue switchVar = some (values switchVar))).map (·.advance switchVar)).filter
        (·.holds values)).map (·.op) =
      ((queue.filter (·.testedValue switchVar = some (values switchVar))).filter (·.holds values)).map (·.op) := by
  rw [List.filter_map, List.map_map]
  congr 1
  apply List.filter_congr
  intro queued member
  obtain ⟨inQueue, tested⟩ := List.mem_filter.mp member
  exact holds_advance (waits queued inQueue) (by simpa using tested)

/-- Each subtree finds the operators of its queue whose conditions hold. -/
theorem generate_constructRecursive (values : ℕ → ℤ) (queue : List (QueuedOperator O)) (domains : List ℤ)
    (rest : allDomains.drop switchVar = domains) (waits : ∀ queued ∈ queue, queued.Waits allDomains switchVar) :
    ((constructRecursive switchVar domains queue).generateApplicableOps values).Perm
      ((queue.filter (·.holds values)).map (·.op)) := by
  -- the queue waits for the first of the domains that are left
  induction domains generalizing switchVar queue with
  | nil =>
    rw [constructRecursive]
    split
    case isTrue isEmpty => simp [List.isEmpty_iff.mp isEmpty, generateApplicableOps]
    case isFalse =>
      rw [List.filter_eq_self.mpr (holds_of_noDomain waits rest)]
      exact List.Perm.refl _
  | cons domain domains inductionHypothesis =>
    have restLater : allDomains.drop (switchVar + 1) = domains := by
      rw [← List.tail_drop, rest, List.tail_cons]
    have isDomain : allDomains[switchVar]? = some domain := by
      rw [← List.head?_drop, rest, List.head?_cons]
    have defaultWaits : ∀ queued ∈ queue.filter (·.isDefault switchVar), queued.Waits allDomains (switchVar + 1) := by
      intro queued member
      obtain ⟨inQueue, isDefault⟩ := List.mem_filter.mp member
      exact (waits queued inQueue).default isDefault
    rw [constructRecursive]
    split
    case isTrue isEmpty => simp [List.isEmpty_iff.mp isEmpty, generateApplicableOps]
    case isFalse =>
    dsimp only
    split
    case isTrue allImmediate =>
      have immediate := List.all_eq_true.mp allImmediate
      rw [List.filter_eq_self.mpr immediate,
        List.filter_eq_self.mpr fun queued member => holds_of_isImmediate (immediate queued member)]
      exact List.Perm.refl _
    case isFalse =>
    split
    case isTrue allDefault =>
      have same := List.filter_eq_self.mpr (List.all_eq_true.mp allDefault)
      rw [same] at defaultWaits ⊢
      exact inductionHypothesis _ restLater defaultWaits
    case isFalse =>
      -- a switch: immediate operators, the subtree of the value, and the default subtree
      rw [generateApplicableOps]
      refine List.Perm.trans ?_ ((filter_holds_perm values switchVar queue).map (·.op)).symm
      rw [List.map_append, List.map_append]
      refine (List.Perm.append_left _ ?_).append (inductionHypothesis _ restLater defaultWaits)
      rw [← filter_advance waits]
      split
      case isTrue =>
        refine inductionHypothesis _ restLater fun queued member => ?_
        obtain ⟨before, isBefore, rfl⟩ := List.mem_map.mp member
        exact (waits before (List.mem_of_mem_filter isBefore)).advance
      case isFalse outside =>
        -- no operator needs a value outside of the domain
        have none : queue.filter (·.testedValue switchVar = some (values switchVar)) = [] := by
          rw [List.filter_eq_nil_iff]
          intro queued member tested
          exact outside (testedValue_inDomain isDomain (waits queued member) (by simpa using tested))
        rw [none]
        exact List.Perm.refl _

/-- The generator finds every applicable operator as often as it is in the task, and no other. -/
theorem generateApplicableOps_perm (operators : List GlobalOperator)
    (proper : ∀ op ∈ operators, ProperConditions allDomains op.preconditions) (values : ℕ → ℤ) :
    ((ofOperators allDomains operators).generateApplicableOps values).Perm
      (operators.filter fun op => op.isApplicable values) := by
  have sorted : ∀ op : GlobalOperator,
      (op.preconditions.mergeSort fun first second => first.var ≤ second.var).Perm op.preconditions :=
    fun op => List.mergeSort_perm _ _
  refine (generate_constructRecursive values _ allDomains List.drop_zero ?_).trans (List.Perm.of_eq ?_)
  · intro queued member
    obtain ⟨op, isOp, rfl⟩ := List.mem_map.mp member
    refine ⟨⟨fun first isFirst second isSecond => ?_, fun condition isCondition => ?_⟩, ?_, fun _ _ => Nat.zero_le _⟩
    · exact (proper op isOp).consistent first ((sorted op).subset isFirst) second ((sorted op).subset isSecond)
    · exact (proper op isOp).inDomain condition ((sorted op).subset isCondition)
    · have ordered := @List.pairwise_mergeSort _ (fun first second : Condition => decide (first.var ≤ second.var))
        (by simp only [decide_eq_true_eq]; omega) (by simp only [Bool.or_eq_true, decide_eq_true_eq]; omega)
        op.preconditions
      simpa using ordered
  · rw [List.filter_map, List.map_map]
    refine (List.map_id _).trans (List.filter_congr fun op _ => ?_)
    exact (sorted op).all_eq

/-- The operator is listed with its second condition given twice. -/
theorem generateApplicableOps_twice :
    ((ofOperators [2, 3] [⟨[⟨1, 2⟩, ⟨0, 1⟩, ⟨1, 2⟩], [], [], "open", 1⟩, ⟨[], [], [], "wait", 1⟩]).generateApplicableOps
        fun var => if var = 0 then 1 else 2).Perm
      [⟨[⟨1, 2⟩, ⟨0, 1⟩, ⟨1, 2⟩], [], [], "open", 1⟩, ⟨[], [], [], "wait", 1⟩] :=
  generateApplicableOps_perm _ (by
    intro op member
    simp only [List.mem_cons, List.not_mem_nil, or_false] at member
    obtain rfl | rfl := member
    · exact ⟨by decide, by simp⟩
    · exact ⟨by simp, by simp⟩) _

end SuccessorGenerator

end CutPlan.Search
