import CutPlan.Translate.BuildModel

/-! # The computed model

The computation of the model takes every atom that follows from the facts by the numbered rules, takes each
derived atom once, and ends.
-/

set_option linter.unusedSectionVars false

namespace CutPlan.Translate

open CutPlan.Lib

variable {Pred Var Obj : Type}
  {atom condition effect newAtom conclusion : BuildAtom Pred Var Obj}
  {conditions premises : List (BuildAtom Pred Var Obj)} {rule : BuildRule Pred Var Obj}
  {rules : List (BuildRule Pred Var Obj)} {trigger : Trigger} {ruleIndex condIndex : ℕ}

/-! ## Premises -/

theorem BuildInfers.sameLength
    (infers : BuildInfers effect conditions premises conclusion) : conditions.length = premises.length := by
  obtain ⟨_, fits, _⟩ := infers
  exact fits.length_eq

theorem BuildInfers.isMatch (infers : BuildInfers effect conditions premises conclusion)
    {premise : BuildAtom Pred Var Obj} (isCondition : conditions[condIndex]? = some condition)
    (isPremise : premises[condIndex]? = some premise) : AtomMatches condition premise := by
  obtain ⟨values, fits, _⟩ := infers
  have isPair := mem_zip_of_getElem? isCondition isPremise
  exact (atomFits_iff.mp ((List.forall₂_iff_zip.mp fits).2 isPair)).1

theorem exists_condition {premise : BuildAtom Pred Var Obj}
    (infers : BuildInfers effect conditions premises conclusion) (isPremise : premises[condIndex]? = some premise) :
    ∃ condition, conditions[condIndex]? = some condition := by
  have inRange := (List.getElem?_eq_some_iff.mp isPremise).1
  rw [← infers.sameLength] at inRange
  exact ⟨_, List.getElem?_eq_getElem inRange⟩

/-! ## The index -/

section Generators

variable {Value : Type} [DecidableEq Var] [DecidableEq Obj]

/-- The arguments have the constants at their places. -/
def HasConstants (args : List (BuildArgument Var Obj)) (constants : ConstantArguments Var Obj) : Prop :=
  ∀ constant ∈ constants, args[constant.1]? = some constant.2

@[simp] theorem hasConstants_nil (args : List (BuildArgument Var Obj)) : HasConstants args [] := by
  simp [HasConstants]

@[simp] theorem hasConstants_cons (args : List (BuildArgument Var Obj))
    (constant : ℕ × BuildArgument Var Obj) (constants : ConstantArguments Var Obj) :
    HasConstants args (constant :: constants) ↔ args[constant.1]? = some constant.2 ∧ HasConstants args constants := by
  simp [HasConstants]

variable {args : List (BuildArgument Var Obj)} {value stored : Value}

theorem Generator.mem_generate_path (constants : ConstantArguments Var Obj) :
    stored ∈ (Generator.path value constants).generate args ↔ stored = value ∧ HasConstants args constants := by
  induction constants with
  | nil => simp [Generator.path, Generator.generate]
  | cons constant constants inductionHypothesis =>
    by_cases atPlace : args[constant.1]? = some constant.2
    · simp [Generator.path, Generator.generate, Branches.generate, atPlace, inductionHypothesis]
    · simp [Generator.path, Generator.generate, Branches.generate, atPlace]

theorem Generator.mem_generate_insertLeaf (known : List Value) (constants : ConstantArguments Var Obj) :
    stored ∈ (Generator.insertLeaf known value constants).generate args ↔
      stored ∈ known ∨ stored = value ∧ HasConstants args constants := by
  cases constants with
  | nil => simp [Generator.insertLeaf, Generator.generate]
  | cons constant constants =>
    by_cases atPlace : args[constant.1]? = some constant.2
    · simp [Generator.insertLeaf, Generator.generate, Branches.generate, atPlace, mem_generate_path]
    · simp [Generator.insertLeaf, Generator.generate, Branches.generate, atPlace]

mutual
/-- An inserted value is generated for the atoms with its constants, besides what was generated before. -/
theorem Generator.mem_generate_insert (constants : ConstantArguments Var Obj) (generator : Generator Var Obj Value) :
    stored ∈ (generator.insert constants value).generate args ↔
      stored ∈ generator.generate args ∨ stored = value ∧ HasConstants args constants := by
  cases generator with
  | leaf known => simpa [Generator.insert, Generator.generate] using Generator.mem_generate_insertLeaf known constants
  | node index known branches next =>
    cases constants with
    | nil =>
      simp only [Generator.insert, Generator.generate, List.mem_append, List.mem_singleton, hasConstants_nil, and_true]
      tauto
    | cons constant constants =>
      obtain ⟨argIndex, argument⟩ := constant
      rw [Generator.insert]
      split
      · simp only [Generator.generate, List.mem_append, Generator.mem_generate_insert _ next]
        tauto
      · split
        · by_cases atPlace : args[argIndex]? = some argument
          · simp only [Generator.generate, Branches.generate, atPlace, if_true, List.mem_append,
              Generator.mem_generate_insertLeaf, List.not_mem_nil, false_or, hasConstants_cons, true_and]
            tauto
          · simp [Generator.generate, Branches.generate, atPlace]
        · have samePlace : index = argIndex := by omega
          subst samePlace
          simp only [Generator.generate, List.mem_append, Branches.mem_generate_insert argument constants branches,
            hasConstants_cons]
          tauto

theorem Branches.mem_generate_insert (argument : BuildArgument Var Obj)
    (constants : ConstantArguments Var Obj) (branches : Branches Var Obj Value)
    {atIndex : Option (BuildArgument Var Obj)} :
    stored ∈ (branches.insert argument constants value).generate args atIndex ↔
      stored ∈ branches.generate args atIndex ∨ stored = value ∧ atIndex = some argument ∧ HasConstants args constants := by
  cases branches with
  | nil =>
    by_cases isArgument : atIndex = some argument
    · simp [Branches.insert, Branches.generate, isArgument, Generator.mem_generate_insertLeaf]
    · simp [Branches.insert, Branches.generate, isArgument]
  | cons known generator rest =>
    rw [Branches.insert]
    split
    next sameArgument =>
      subst sameArgument
      by_cases isKnown : atIndex = some known
      · simp [Branches.generate, isKnown, Generator.mem_generate_insert constants generator]
      · simp [Branches.generate, isKnown]
    next otherArgument =>
      by_cases isKnown : atIndex = some known
      · simp [Branches.generate, isKnown, otherArgument]
      · simp [Branches.generate, isKnown, Branches.mem_generate_insert argument constants rest]
end

variable [DecidableEq Pred]

/-- The index finds the conditions with the predicate of the atom and constants that agree with it. -/
def Triggers (condition atom : BuildAtom Pred Var Obj) : Prop :=
  condition.predicate = atom.predicate ∧ HasConstants atom.args (constantArguments condition)

theorem mem_unify_insertCondition {unifier : Unifier Pred Var Obj} {found : Trigger} :
    found ∈ unify (insertCondition unifier condition trigger) atom ↔
      found ∈ unify unifier atom ∨ found = trigger ∧ Triggers condition atom := by
  by_cases samePredicate : condition.predicate = atom.predicate
  · have before : found ∈ unify unifier atom ↔
        found ∈ ((unifier.get? atom.predicate).getD (.leaf [])).generate atom.args := by
      cases known : unifier.get? atom.predicate <;> simp [unify, known, Generator.generate]
    rw [before]
    simp [unify, insertCondition, Triggers, samePredicate, Generator.mem_generate_insert]
  · have isOther : atom.predicate ≠ condition.predicate := fun same => samePredicate same.symm
    simp [unify, insertCondition, Triggers, samePredicate, Dictionary.get?_insert_of_ne isOther]

theorem mem_unify_foldl (entries : List (BuildAtom Pred Var Obj × Trigger))
    {unifier : Unifier Pred Var Obj} {found : Trigger} :
    found ∈ unify (entries.foldl (fun unifier entry => insertCondition unifier entry.1 entry.2) unifier) atom ↔
      found ∈ unify unifier atom ∨ ∃ entry ∈ entries, found = entry.2 ∧ Triggers entry.1 atom := by
  induction entries generalizing unifier with
  | nil => simp
  | cons entry entries inductionHypothesis =>
    rw [List.foldl_cons, inductionHypothesis, mem_unify_insertCondition, List.exists_mem_cons_iff, or_assoc]

theorem mem_unify_iff :
    trigger ∈ unify (buildUnifier rules) atom ↔ ∃ rule condition, rules[trigger.1]? = some rule ∧
      rule.conditions[trigger.2]? = some condition ∧ Triggers condition atom := by
  have nothing : trigger ∉ unify (Dictionary.empty : Unifier Pred Var Obj) atom := by simp [unify]
  rw [buildUnifier, mem_unify_foldl]
  simp only [nothing, false_or, triggers, List.mem_flatMap, List.mem_map, Prod.exists, List.mem_zipIdx_iff_getElem?]
  constructor
  · rintro ⟨_, _, _, ⟨rule, ruleIndex, isRule, condition, condIndex, isCondition, same⟩, rfl, triggers⟩
    cases same
    exact ⟨rule, _, isRule, isCondition, triggers⟩
  · rintro ⟨rule, condition, isRule, isCondition, triggers⟩
    exact ⟨_, _, _, ⟨rule, _, isRule, condition, _, isCondition, rfl⟩, rfl, triggers⟩

theorem mem_constantArguments {index : ℕ} {argument : BuildArgument Var Obj} :
    (index, argument) ∈ constantArguments condition ↔
      condition.args[index]? = some argument ∧ argument.constant?.isSome := by
  simp only [constantArguments, List.mem_filterMap, Prod.exists, List.mem_zipIdx_iff_getElem?,
    Option.ite_none_right_eq_some, Option.some.injEq, Prod.mk.injEq]
  constructor
  · rintro ⟨argument, index, atIndex, isConstant, rfl, rfl⟩
    exact ⟨atIndex, isConstant⟩
  · rintro ⟨atIndex, isConstant⟩
    exact ⟨argument, index, atIndex, isConstant, rfl, rfl⟩

/-- For atoms of the right length the constants are all there is to compare. -/
theorem triggers_iff
    (sameLength : condition.args.length = atom.args.length) : Triggers condition atom ↔ AtomMatches condition atom := by
  constructor
  · rintro ⟨samePredicate, hasConstants⟩
    refine ⟨samePredicate.symm, List.forall₂_iff_get.mpr ⟨sameLength, ?_⟩⟩
    intro place inCondition inAtom
    cases isArgument : condition.args[place] with
    | position index => simp [isArgument, BuildArgument.Matches]
    | term kept =>
      cases kept with
      | var name => simp [isArgument, BuildArgument.Matches]
      | object known =>
        have atPlace : condition.args[place]? = some (.term (.object known)) := by
          rw [List.getElem?_eq_getElem inCondition, isArgument]
        have isConstant := hasConstants (place, _) (mem_constantArguments.mpr ⟨atPlace, rfl⟩)
        simpa [isArgument, BuildArgument.Matches, List.getElem?_eq_getElem inAtom] using isConstant
  · intro isMatch
    refine ⟨isMatch.predicate.symm, ?_⟩
    rintro ⟨place, argument⟩ member
    obtain ⟨atPlace, isConstant⟩ := mem_constantArguments.mp member
    obtain ⟨inCondition, rfl⟩ := List.getElem?_eq_some_iff.mp atPlace
    have inAtom : place < atom.args.length := by omega
    have slot := (List.forall₂_iff_get.mp isMatch.args).2 place inCondition inAtom
    simp only [List.get_eq_getElem] at slot
    rw [List.getElem?_eq_getElem inAtom]
    cases isArgument : condition.args[place] with
    | position index => simp [isArgument, BuildArgument.constant?] at isConstant
    | term kept =>
      cases kept with
      | var name => simp [isArgument, BuildArgument.constant?] at isConstant
      | object known =>
        rw [isArgument] at slot
        exact congrArg some slot

end Generators

/-! ## The queue -/

namespace Queue

variable [DecidableEq Pred] [DecidableEq Var] [DecidableEq Obj]

/-- The set of enqueued atoms is that of the queue. -/
def Consistent (queue : Queue Pred Var Obj) : Prop :=
  ∀ atom, atom ∈ queue.enqueued ↔ atom ∈ queue.queue

theorem consistent_ofAtoms (atoms : List (BuildAtom Pred Var Obj)) : (ofAtoms atoms).Consistent := by
  simp [Consistent, ofAtoms]

/-- Pushes put the atoms that are new at the end, each once. -/
structure Pushed (before after : Queue Pred Var Obj) (atoms added : List (BuildAtom Pred Var Obj)) :
    Prop where
  queue : after.queue = before.queue ++ added
  queuePos : after.queuePos = before.queuePos
  consistent : after.Consistent
  nodup : added.Nodup
  new : ∀ atom ∈ added, atom ∈ atoms ∧ atom ∉ before.queue
  all : ∀ atom ∈ atoms, atom ∈ after.queue

theorem exists_pushed (atoms : List (BuildAtom Pred Var Obj)) {queue : Queue Pred Var Obj}
    (consistent : queue.Consistent) : ∃ added, Pushed queue (queue.pushAll atoms) atoms added := by
  induction atoms generalizing queue with
  | nil => exact ⟨[], by simp [pushAll], rfl, consistent, List.nodup_nil, by simp, by simp⟩
  | cons atom atoms inductionHypothesis =>
    rw [pushAll, List.foldl_cons, ← pushAll]
    by_cases known : atom ∈ queue.enqueued
    · have isPush : (queue.push atom).queue = queue.queue := by simp [push, known]
      obtain ⟨added, pushed⟩ := inductionHypothesis
        (show (queue.push atom).Consistent by simpa [Consistent, push, known] using consistent)
      refine ⟨added, by rw [pushed.queue, isPush], ?_, pushed.consistent, pushed.nodup, ?_, ?_⟩
      · rw [pushed.queuePos]
        simp [push, known]
      · intro later member
        have ⟨inAtoms, isNew⟩ := pushed.new later member
        exact ⟨List.mem_cons_of_mem _ inAtoms, isPush ▸ isNew⟩
      · rw [List.forall_mem_cons]
        refine ⟨?_, pushed.all⟩
        rw [pushed.queue, isPush]
        exact List.mem_append_left _ ((consistent atom).mp known)
    · have isPush : (queue.push atom).queue = queue.queue ++ [atom] := by simp [push, known]
      have stillConsistent : (queue.push atom).Consistent := by
        intro other
        simp [push, known, consistent other, or_comm]
      obtain ⟨added, pushed⟩ := inductionHypothesis stillConsistent
      refine ⟨atom :: added, by rw [pushed.queue, isPush, List.append_assoc]; rfl, ?_, pushed.consistent, ?_, ?_, ?_⟩
      · rw [pushed.queuePos]
        simp [push, known]
      · refine List.nodup_cons.mpr ⟨fun member => ?_, pushed.nodup⟩
        exact (pushed.new atom member).2 (by simp [isPush])
      · rw [List.forall_mem_cons]
        refine ⟨⟨List.mem_cons_self, fun inQueue => known ((consistent atom).mpr inQueue)⟩, ?_⟩
        intro later member
        have ⟨inAtoms, isNew⟩ := pushed.new later member
        rw [isPush, List.mem_append, not_or] at isNew
        exact ⟨List.mem_cons_of_mem _ inAtoms, isNew.1⟩
      · rw [List.forall_mem_cons]
        refine ⟨?_, pushed.all⟩
        rw [pushed.queue, isPush]
        simp

theorem pushAll_append (queue : Queue Pred Var Obj) (first second : List (BuildAtom Pred Var Obj)) :
    queue.pushAll (first ++ second) = (queue.pushAll first).pushAll second :=
  List.foldl_append

end Queue

/-! ## One atom -/

section Firing

variable [DecidableEq Pred] [DecidableEq Var] [DecidableEq Obj]

/-- The rules after all matches of an atom, and what they enqueue. -/
def fireAll (newAtom : BuildAtom Pred Var Obj) :
    List Trigger → List (BuildRule Pred Var Obj) →
      List (BuildRule Pred Var Obj) × List (BuildAtom Pred Var Obj)
  | [], rules => (rules, [])
  | trigger :: rest, rules =>
    match rules[trigger.1]? with
    | none => fireAll newAtom rest rules
    | some rule =>
      let rule := rule.updateIndex newAtom trigger.2
      let (rules, fired) := fireAll newAtom rest (rules.set trigger.1 rule)
      (rules, rule.fire newAtom trigger.2 ++ fired)

theorem foldl_processMatch (newAtom : BuildAtom Pred Var Obj) (triggers : List Trigger)
    (state : ModelState Pred Var Obj) :
    triggers.foldl (processMatch newAtom) state =
      ⟨(fireAll newAtom triggers state.rules).1, state.queue.pushAll (fireAll newAtom triggers state.rules).2⟩ := by
  induction triggers generalizing state with
  | nil => rfl
  | cons trigger triggers inductionHypothesis =>
    rw [List.foldl_cons, inductionHypothesis, processMatch, fireAll]
    cases atIndex : state.rules[trigger.1]? with
    | none => rfl
    | some rule => simp only [Queue.pushAll_append]

/-- The atoms recorded by each rule for each of its conditions. -/
abbrev Seen (Pred Var Obj : Type) := ℕ → ℕ → List (BuildAtom Pred Var Obj)

def Seen.add (seen : Seen Pred Var Obj) (newAtom : BuildAtom Pred Var Obj)
    (trigger : Trigger) : Seen Pred Var Obj := fun ruleIndex condIndex =>
  if (ruleIndex, condIndex) = trigger then seen ruleIndex condIndex ++ [newAtom] else seen ruleIndex condIndex

/-- The lists for the conditions of one rule. -/
def Seen.ofRule (seen : Seen Pred Var Obj) (ruleIndex : ℕ) (rule : BuildRule Pred Var Obj) :
    List (List (BuildAtom Pred Var Obj)) :=
  (List.range rule.conditions.length).map (seen ruleIndex)

structure Recorded (rules : List (BuildRule Pred Var Obj)) (seen : Seen Pred Var Obj) :
    Prop where
  ready : ∀ rule ∈ rules, rule.Ready
  records : ∀ (ruleIndex : ℕ) rule, rules[ruleIndex]? = some rule → rule.Records (seen.ofRule ruleIndex rule)
  isMatch : ∀ (ruleIndex condIndex : ℕ) rule condition, rules[ruleIndex]? = some rule →
    rule.conditions[condIndex]? = some condition → ∀ atom ∈ seen ruleIndex condIndex, AtomMatches condition atom

theorem Recorded.seenMatch {seen : Seen Pred Var Obj} (recorded : Recorded rules seen)
    (atIndex : rules[ruleIndex]? = some rule) : SeenMatch rule.conditions (seen.ofRule ruleIndex rule) := by
  refine List.forall₂_iff_get.mpr ⟨by simp [Seen.ofRule], ?_⟩
  intro condIndex inConditions inSeen
  have sameList : (seen.ofRule ruleIndex rule)[condIndex] = seen ruleIndex condIndex := by simp [Seen.ofRule]
  simp only [List.get_eq_getElem, sameList]
  exact recorded.isMatch ruleIndex condIndex rule _ atIndex (List.getElem?_eq_getElem inConditions)

theorem Seen.getElem?_ofRule {seen : Seen Pred Var Obj} (inRange : condIndex < rule.conditions.length) :
    (seen.ofRule ruleIndex rule)[condIndex]? = some (seen ruleIndex condIndex) := by
  simp [ofRule, inRange]

theorem Seen.ofRule_add_of_ne {seen : Seen Pred Var Obj} (isOther : ruleIndex ≠ trigger.1) (rule : BuildRule Pred Var Obj) :
    (seen.add newAtom trigger).ofRule ruleIndex rule = seen.ofRule ruleIndex rule := by
  apply List.map_congr_left
  intro condIndex _
  have apart : (ruleIndex, condIndex) ≠ trigger := fun same => isOther (congrArg Prod.fst same)
  simp [Seen.add, apart]

theorem Seen.ofRule_add {seen : Seen Pred Var Obj} (inRange : trigger.2 < rule.conditions.length) :
    (seen.add newAtom trigger).ofRule trigger.1 rule = recordAtom (seen.ofRule trigger.1 rule) newAtom trigger.2 := by
  apply List.ext_getElem?
  intro condIndex
  rw [recordAtom, List.getElem?_set]
  by_cases same : trigger.2 = condIndex
  · subst same
    simp [Seen.add, inRange, List.getD_eq_getElem?_getD, ofRule]
  · have apart : (trigger.1, condIndex) ≠ trigger := fun isSame => same (congrArg Prod.snd isSame).symm
    have kept : seen.add newAtom trigger trigger.1 condIndex = seen trigger.1 condIndex := if_neg apart
    by_cases isCondition : condIndex < rule.conditions.length <;> simp [same, ofRule, isCondition, kept]

theorem Seen.mem_add {seen : Seen Pred Var Obj} :
    atom ∈ seen.add newAtom trigger ruleIndex condIndex ↔
      atom ∈ seen ruleIndex condIndex ∨ (ruleIndex, condIndex) = trigger ∧ atom = newAtom := by
  by_cases isTrigger : (ruleIndex, condIndex) = trigger <;> simp [add, isTrigger]

/-- Recording one atom for one condition that it matches. -/
theorem Recorded.add {seen : Seen Pred Var Obj}
    (recorded : Recorded rules seen) (atIndex : rules[trigger.1]? = some rule)
    (atCondition : rule.conditions[trigger.2]? = some condition) (isMatch : AtomMatches condition newAtom) :
    Recorded (rules.set trigger.1 (rule.updateIndex newAtom trigger.2)) (seen.add newAtom trigger) := by
  have inRange := (List.getElem?_eq_some_iff.mp atCondition).1
  have inRules := (List.getElem?_eq_some_iff.mp atIndex).1
  have ruleUpdated : ∀ (ruleIndex : ℕ) other,
      (rules.set trigger.1 (rule.updateIndex newAtom trigger.2))[ruleIndex]? = some other →
        ruleIndex = trigger.1 ∧ other = rule.updateIndex newAtom trigger.2 ∨
          ruleIndex ≠ trigger.1 ∧ rules[ruleIndex]? = some other := by
    intro ruleIndex other isOther
    rw [List.getElem?_set] at isOther
    by_cases same : trigger.1 = ruleIndex
    · subst same
      rw [if_pos rfl, if_pos inRules] at isOther
      exact Or.inl ⟨rfl, (Option.some.inj isOther).symm⟩
    · rw [if_neg same] at isOther
      exact Or.inr ⟨fun isSame => same isSame.symm, isOther⟩
  have sameOfRule : (seen.add newAtom trigger).ofRule trigger.1 (rule.updateIndex newAtom trigger.2) =
      recordAtom (seen.ofRule trigger.1 rule) newAtom trigger.2 := by
    rw [← Seen.ofRule_add inRange, Seen.ofRule, Seen.ofRule, BuildRule.conditions_updateIndex]
  constructor
  · intro other isOther
    cases List.mem_or_eq_of_mem_set isOther with
    | inl old => exact recorded.ready other old
    | inr isUpdated =>
      rw [isUpdated]
      exact (recorded.ready rule (List.mem_of_getElem? atIndex)).updateIndex trigger.2
  · intro ruleIndex other isOther
    rcases ruleUpdated ruleIndex other isOther with ⟨rfl, rfl⟩ | ⟨apart, isOld⟩
    · rw [sameOfRule]
      exact (recorded.records _ rule atIndex).updateIndex (by simpa [Seen.ofRule] using inRange)
    · rw [Seen.ofRule_add_of_ne apart]
      exact recorded.records ruleIndex other isOld
  · intro ruleIndex condIndex other otherCondition isOther isCondition atom isSeen
    rcases Seen.mem_add.mp isSeen with old | ⟨rfl, rfl⟩
    · rcases ruleUpdated ruleIndex other isOther with ⟨rfl, rfl⟩ | ⟨apart, isOld⟩
      · rw [BuildRule.conditions_updateIndex] at isCondition
        exact recorded.isMatch _ _ rule _ atIndex isCondition atom old
      · exact recorded.isMatch _ _ other _ isOld isCondition atom old
    · rcases ruleUpdated ruleIndex other isOther with ⟨_, rfl⟩ | ⟨apart, _⟩
      · rw [BuildRule.conditions_updateIndex, atCondition] at isCondition
        exact Option.some.inj isCondition ▸ isMatch
      · exact absurd rfl apart

/-- The effect and the conditions of a rule never change. -/
def BuildRule.shape (rule : BuildRule Pred Var Obj) :
    BuildAtom Pred Var Obj × List (BuildAtom Pred Var Obj) :=
  (rule.effect, rule.conditions)

theorem shape_set_updateIndex (atIndex : rules[ruleIndex]? = some rule)
    (newAtom : BuildAtom Pred Var Obj) (condIndex : ℕ) :
    (rules.set ruleIndex (rule.updateIndex newAtom condIndex)).map BuildRule.shape = rules.map BuildRule.shape := by
  obtain ⟨inRange, rfl⟩ := List.getElem?_eq_some_iff.mp atIndex
  rw [List.map_set]
  simp only [BuildRule.shape, BuildRule.effect_updateIndex, BuildRule.conditions_updateIndex]
  have inShapes : ruleIndex < (rules.map BuildRule.shape).length := by simpa using inRange
  have unchanged := List.set_getElem_self inShapes
  simpa [BuildRule.shape] using unchanged

/-- A premise for every condition of the rule at an index. -/
def Seen.Chosen (seen : Seen Pred Var Obj) (ruleIndex : ℕ)
    (premises : List (BuildAtom Pred Var Obj)) : Prop :=
  ∀ (condIndex : ℕ) premise, premises[condIndex]? = some premise → premise ∈ seen ruleIndex condIndex

theorem Seen.chosenFrom_iff {seen : Seen Pred Var Obj} :
    ChosenFrom (seen.ofRule ruleIndex rule) premises ↔
      rule.conditions.length = premises.length ∧ seen.Chosen ruleIndex premises := by
  rw [ChosenFrom, List.forall₂_iff_get]
  simp only [ofRule, List.length_map, List.length_range, List.get_eq_getElem, List.getElem_map, List.getElem_range]
  apply and_congr_right
  intro sameLength
  constructor
  · intro chosen condIndex premise isPremise
    obtain ⟨inRange, rfl⟩ := List.getElem?_eq_some_iff.mp isPremise
    exact chosen condIndex (by omega) inRange
  · intro chosen condIndex _ inRange
    exact chosen condIndex _ (List.getElem?_eq_getElem inRange)

/-- All atoms that the matches of an atom are recorded for. -/
def Seen.addAll (seen : Seen Pred Var Obj) (newAtom : BuildAtom Pred Var Obj)
    (triggers : List Trigger) : Seen Pred Var Obj :=
  triggers.foldl (fun seen trigger => seen.add newAtom trigger) seen

theorem Seen.mem_addAll {seen : Seen Pred Var Obj} {triggers : List Trigger} :
    atom ∈ seen.addAll newAtom triggers ruleIndex condIndex ↔
      atom ∈ seen ruleIndex condIndex ∨ (ruleIndex, condIndex) ∈ triggers ∧ atom = newAtom := by
  induction triggers generalizing seen with
  | nil => simp [addAll]
  | cons trigger triggers inductionHypothesis =>
    rw [addAll, List.foldl_cons, ← addAll, inductionHypothesis, mem_add, List.mem_cons]
    tauto

structure FiredAll (shapes : List (BuildAtom Pred Var Obj × List (BuildAtom Pred Var Obj)))
    (seen after : Seen Pred Var Obj) (fired : List (BuildAtom Pred Var Obj)) : Prop where
  sound : ∀ conclusion ∈ fired, ∃ (ruleIndex : ℕ) (effect : BuildAtom Pred Var Obj) (conditions : List _)
    (premises : List _), shapes[ruleIndex]? = some (effect, conditions) ∧ after.Chosen ruleIndex premises ∧
      BuildInfers effect conditions premises conclusion
  complete : ∀ (ruleIndex : ℕ) (effect : BuildAtom Pred Var Obj) (conditions premises : List _) conclusion,
    shapes[ruleIndex]? = some (effect, conditions) → after.Chosen ruleIndex premises →
      BuildInfers effect conditions premises conclusion → seen.Chosen ruleIndex premises ∨ conclusion ∈ fired

/-- Every match enqueues the instances with the new atom at its condition and recorded atoms at the others. -/
theorem fireAll_spec {triggers : List Trigger} {seen : Seen Pred Var Obj} (recorded : Recorded rules seen)
    (areMatches : ∀ trigger ∈ triggers, ∃ effect conditions condition,
      (rules.map BuildRule.shape)[trigger.1]? = some (effect, conditions) ∧
        conditions[trigger.2]? = some condition ∧ AtomMatches condition newAtom) :
    Recorded (fireAll newAtom triggers rules).1 (seen.addAll newAtom triggers) ∧
      (fireAll newAtom triggers rules).1.map BuildRule.shape = rules.map BuildRule.shape ∧
      FiredAll (rules.map BuildRule.shape) seen (seen.addAll newAtom triggers) (fireAll newAtom triggers rules).2 := by
  induction triggers generalizing rules seen with
  | nil =>
    refine ⟨recorded, rfl, by simp [fireAll], ?_⟩
    intro _ _ _ _ _ _ chosen _
    exact Or.inl chosen
  | cons trigger triggers inductionHypothesis =>
    rw [List.forall_mem_cons] at areMatches
    obtain ⟨⟨effect, conditions, condition, isShape, atCondition, isMatch⟩, restMatch⟩ := areMatches
    rw [List.getElem?_map, Option.map_eq_some_iff] at isShape
    obtain ⟨rule, atIndex, isShape⟩ := isShape
    cases isShape
    have inRange := (List.getElem?_eq_some_iff.mp atCondition).1
    have added := recorded.add atIndex atCondition isMatch
    have sameShapes := shape_set_updateIndex atIndex newAtom trigger.2
    rw [← sameShapes] at restMatch
    obtain ⟨recordedAll, shapesAll, sound, complete⟩ := inductionHypothesis added restMatch
    rw [sameShapes] at shapesAll sound complete
    -- What the updated rule enqueues.
    have updatedAt : (rules.set trigger.1 (rule.updateIndex newAtom trigger.2))[trigger.1]? =
        some (rule.updateIndex newAtom trigger.2) :=
      List.getElem?_set_self (List.getElem?_eq_some_iff.mp atIndex).1
    have isSeen : newAtom ∈ seen.add newAtom trigger trigger.1 trigger.2 := Seen.mem_add.mpr (Or.inr ⟨rfl, rfl⟩)
    have fires := BuildRule.fires (added.ready _ (List.mem_of_getElem? updatedAt)) (added.records _ _ updatedAt)
      (added.seenMatch updatedAt) (Seen.getElem?_ofRule (by simpa using inRange)) isSeen
    simp only [FiresExactly, Seen.chosenFrom_iff, BuildRule.effect_updateIndex, BuildRule.conditions_updateIndex] at fires
    have isFireAll : fireAll newAtom (trigger :: triggers) rules =
        ((fireAll newAtom triggers (rules.set trigger.1 (rule.updateIndex newAtom trigger.2))).1,
          (rule.updateIndex newAtom trigger.2).fire newAtom trigger.2 ++
            (fireAll newAtom triggers (rules.set trigger.1 (rule.updateIndex newAtom trigger.2))).2) := by
      simp only [fireAll, atIndex]
    have isAddAll : seen.addAll newAtom (trigger :: triggers) = (seen.add newAtom trigger).addAll newAtom triggers := rfl
    rw [isFireAll, isAddAll]
    refine ⟨recordedAll, shapesAll, ?_, ?_⟩
    · intro conclusion member
      cases List.mem_append.mp member with
      | inr later => exact sound conclusion later
      | inl now =>
        obtain ⟨premises, ⟨_, chosen⟩, _, infers⟩ := (fires conclusion).mp now
        refine ⟨trigger.1, rule.effect, rule.conditions, premises, ?_, ?_, infers⟩
        · rw [List.getElem?_map, atIndex]
          rfl
        · intro condIndex premise isPremise
          exact Seen.mem_addAll.mpr (Or.inl (chosen condIndex premise isPremise))
    · intro ruleIndex effect conditions premises conclusion isShape chosen infers
      cases complete ruleIndex effect conditions premises conclusion isShape chosen infers with
      | inr later => exact Or.inr (List.mem_append_right _ later)
      | inl chosenNow =>
        by_cases already : seen.Chosen ruleIndex premises
        · exact Or.inl already
        · -- The new atom is the premise for the condition of this match.
          simp only [Seen.Chosen, not_forall] at already
          obtain ⟨condIndex, premise, isPremise, isNew⟩ := already
          have ⟨isTrigger, isAtom⟩ := (Seen.mem_add.mp (chosenNow condIndex premise isPremise)).resolve_left isNew
          subst isTrigger isAtom
          rw [List.getElem?_map, atIndex] at isShape
          cases isShape
          exact Or.inr (List.mem_append_left _
            ((fires conclusion).mpr ⟨premises, ⟨infers.sameLength, chosenNow⟩, isPremise, infers⟩))

end Firing

/-! ## The run of the loop -/

section Run

variable [DecidableEq Pred] [DecidableEq Var] [DecidableEq Obj]

abbrev Shape (Pred Var Obj : Type) :=
  BuildAtom Pred Var Obj × List (BuildAtom Pred Var Obj)

/-- An instance of one of the rules. -/
def InfersAny (shapes : List (Shape Pred Var Obj)) (premises : List (BuildAtom Pred Var Obj))
    (conclusion : BuildAtom Pred Var Obj) : Prop :=
  ∃ shape ∈ shapes, BuildInfers shape.1 shape.2 premises conclusion

def Sized (arity : Pred → ℕ) (atom : BuildAtom Pred Var Obj) : Prop :=
  atom.args.length = arity atom.predicate

/-- Predicates have arities, and every rule has a condition. -/
structure ShapesSized (arity : Pred → ℕ) (shapes : List (Shape Pred Var Obj)) : Prop where
  effect : ∀ shape ∈ shapes, Sized arity shape.1
  conditions : ∀ shape ∈ shapes, ∀ condition ∈ shape.2, Sized arity condition
  nonempty : ∀ shape ∈ shapes, shape.2 ≠ []

theorem sized_effectUnder {arity : Pred → ℕ}
    (sized : Sized arity effect) (values : ℕ → BuildArgument Var Obj) : Sized arity (effectUnder values effect) := by
  simpa [Sized, effectUnder] using sized

/-- The atoms recorded for a condition are those taken that match it. -/
structure Remembers (shapes : List (Shape Pred Var Obj)) (rules : List (BuildRule Pred Var Obj))
    (taken : List (BuildAtom Pred Var Obj)) (seen : Seen Pred Var Obj) : Prop where
  recorded : Recorded rules seen
  sameShapes : rules.map BuildRule.shape = shapes
  taken : ∀ (ruleIndex condIndex : ℕ) effect conditions condition, shapes[ruleIndex]? = some (effect, conditions) →
    conditions[condIndex]? = some condition → ∀ atom,
      atom ∈ seen ruleIndex condIndex ↔ atom ∈ taken ∧ AtomMatches condition atom

theorem mem_unify_iff_matches {arity : Pred → ℕ} {shapes : List (Shape Pred Var Obj)} (sameShapes : rules.map BuildRule.shape = shapes)
    (sized : ShapesSized arity shapes) (atomSized : Sized arity atom) :
    trigger ∈ unify (buildUnifier rules) atom ↔ ∃ effect conditions condition,
      shapes[trigger.1]? = some (effect, conditions) ∧ conditions[trigger.2]? = some condition ∧
        AtomMatches condition atom := by
  rw [mem_unify_iff]
  have sameLength : ∀ {effect : BuildAtom Pred Var Obj} {conditions : List _} {condition : BuildAtom _ _ _},
      shapes[trigger.1]? = some (effect, conditions) → conditions[trigger.2]? = some condition →
        condition.predicate = atom.predicate → condition.args.length = atom.args.length := by
    intro effect conditions condition isShape isCondition samePredicate
    have conditionSized := sized.conditions _ (List.mem_of_getElem? isShape) condition (List.mem_of_getElem? isCondition)
    rw [Sized] at conditionSized atomSized
    rw [conditionSized, atomSized, samePredicate]
  constructor
  · rintro ⟨rule, condition, isRule, isCondition, triggers⟩
    have isShape : shapes[trigger.1]? = some (rule.effect, rule.conditions) := by
      rw [← sameShapes, List.getElem?_map, isRule]
      rfl
    exact ⟨_, _, condition, isShape, isCondition,
      (triggers_iff (sameLength isShape isCondition triggers.1)).mp triggers⟩
  · rintro ⟨effect, conditions, condition, isShape, isCondition, isMatch⟩
    have triggers := (triggers_iff (sameLength isShape isCondition isMatch.predicate.symm)).mpr isMatch
    rw [← sameShapes, List.getElem?_map, Option.map_eq_some_iff] at isShape
    obtain ⟨rule, isRule, same⟩ := isShape
    cases same
    exact ⟨rule, condition, isRule, isCondition, triggers⟩

/-- The matches of the next atom lead to all conclusions in which it takes part. -/
theorem Remembers.next {arity : Pred → ℕ} {shapes : List (Shape Pred Var Obj)}
    {initialRules : List (BuildRule Pred Var Obj)} {taken : List (BuildAtom Pred Var Obj)}
    {seen : Seen Pred Var Obj} (remembers : Remembers shapes rules taken seen)
    (initialShapes : initialRules.map BuildRule.shape = shapes) (sized : ShapesSized arity shapes)
    {next : BuildAtom Pred Var Obj} (nextSized : Sized arity next) :
    Remembers shapes (fireAll next (unify (buildUnifier initialRules) next) rules).1 (taken ++ [next])
        (seen.addAll next (unify (buildUnifier initialRules) next)) ∧
      Concludes (InfersAny shapes) taken next (fireAll next (unify (buildUnifier initialRules) next) rules).2 := by
  have isTrigger : ∀ trigger, trigger ∈ unify (buildUnifier initialRules) next ↔ _ := fun trigger =>
    mem_unify_iff_matches initialShapes sized nextSized
  generalize unify (buildUnifier initialRules) next = triggers at isTrigger
  have areMatches := fun trigger (member : trigger ∈ triggers) => (isTrigger trigger).mp member
  rw [← remembers.sameShapes] at areMatches
  obtain ⟨recorded, sameShapes, sound, complete⟩ := fireAll_spec remembers.recorded areMatches
  rw [remembers.sameShapes] at sameShapes sound complete
  have takenNext : ∀ (ruleIndex condIndex : ℕ) effect conditions condition,
      shapes[ruleIndex]? = some (effect, conditions) → conditions[condIndex]? = some condition → ∀ atom,
        atom ∈ seen.addAll next triggers ruleIndex condIndex ↔ atom ∈ taken ++ [next] ∧ AtomMatches condition atom := by
    intro ruleIndex condIndex effect conditions condition isShape isCondition atom
    have triggered : (ruleIndex, condIndex) ∈ triggers ↔ AtomMatches condition next := by
      rw [isTrigger]
      constructor
      · rintro ⟨effect', conditions', condition', isShape', isCondition', isMatch⟩
        rw [isShape] at isShape'
        cases isShape'
        rw [isCondition] at isCondition'
        cases isCondition'
        exact isMatch
      · intro isMatch
        exact ⟨effect, conditions, condition, isShape, isCondition, isMatch⟩
    rw [Seen.mem_addAll, remembers.taken ruleIndex condIndex effect conditions condition isShape isCondition, triggered,
      List.mem_append, List.mem_singleton, or_and_right]
    apply or_congr_right
    constructor
    · rintro ⟨isMatch, rfl⟩
      exact ⟨rfl, isMatch⟩
    · rintro ⟨rfl, isMatch⟩
      exact ⟨isMatch, rfl⟩
  refine ⟨⟨recorded, sameShapes, takenNext⟩, ?_, ?_⟩
  · intro conclusion member
    obtain ⟨ruleIndex, effect, conditions, premises, isShape, chosen, infers⟩ := sound conclusion member
    refine ⟨premises, ⟨_, List.mem_of_getElem? isShape, infers⟩, fun premise isPremise => ?_⟩
    obtain ⟨condIndex, isPremise⟩ := List.mem_iff_getElem?.mp isPremise
    obtain ⟨condition, isCondition⟩ := exists_condition infers isPremise
    exact ((takenNext _ _ _ _ condition isShape isCondition premise).mp (chosen condIndex premise isPremise)).1
  · rintro premises conclusion ⟨⟨effect, conditions⟩, isShape, infers⟩ inTaken
    obtain ⟨ruleIndex, isShape⟩ := List.mem_iff_getElem?.mp isShape
    have chosen : (seen.addAll next triggers).Chosen ruleIndex premises := by
      intro condIndex premise isPremise
      obtain ⟨condition, isCondition⟩ := exists_condition infers isPremise
      refine (takenNext _ _ _ _ condition isShape isCondition premise).mpr ⟨?_, infers.isMatch isCondition isPremise⟩
      exact inTaken premise (List.mem_of_getElem? isPremise)
    cases complete ruleIndex effect conditions premises conclusion isShape chosen infers with
    | inr isFired => exact Or.inr isFired
    | inl before =>
      left
      intro premise isPremise
      obtain ⟨condIndex, isPremise⟩ := List.mem_iff_getElem?.mp isPremise
      obtain ⟨condition, isCondition⟩ := exists_condition infers isPremise
      exact ((remembers.taken _ _ _ _ condition isShape isCondition premise).mp (before condIndex premise isPremise)).1

/-! ## Termination -/

/-- The atoms of the effects over given objects. -/
def herbrandAtoms (objects : List (BuildArgument Var Obj)) (shapes : List (Shape Pred Var Obj)) :
    List (BuildAtom Pred Var Obj) :=
  shapes.flatMap fun shape =>
    (cartesian (shape.1.args.map fun _ => objects)).map fun args => ⟨shape.1.predicate, args⟩

/-- The objects of the facts and the constants of the effects. -/
def programObjects (facts : List (BuildAtom Pred Var Obj)) (shapes : List (Shape Pred Var Obj)) :
    List (BuildArgument Var Obj) :=
  (facts ++ shapes.map Prod.fst).flatMap Atom.args

theorem mem_herbrandAtoms {objects : List (BuildArgument Var Obj)} {shapes : List (Shape Pred Var Obj)}
    {shape : Shape Pred Var Obj} (isShape : shape ∈ shapes) {args : List (BuildArgument Var Obj)}
    (sameLength : args.length = shape.1.args.length) (inObjects : ∀ argument ∈ args, argument ∈ objects) :
    ⟨shape.1.predicate, args⟩ ∈ herbrandAtoms objects shapes := by
  refine List.mem_flatMap.mpr ⟨shape, isShape, List.mem_map_of_mem (mem_cartesian.mpr ?_)⟩
  rw [List.forall₂_map_right_iff, List.forall₂_iff_get]
  exact ⟨sameLength, fun place inArgs _ => inObjects _ (List.getElem_mem inArgs)⟩

/-- What is derived has the objects of the program. -/
theorem args_mem_programObjects {facts : List (BuildAtom Pred Var Obj)} {shapes : List (Shape Pred Var Obj)}
    (wellNumbered : ∀ shape ∈ shapes, WellNumbered shape.1 shape.2) (follows : Follows {fact | fact ∈ facts} (InfersAny shapes) atom) :
    ∀ argument ∈ atom.args, argument ∈ programObjects facts shapes := by
  refine follows.least {atom | ∀ argument ∈ atom.args, argument ∈ programObjects facts shapes} ?_ ?_
  · intro fact isFact argument member
    exact List.mem_flatMap.mpr ⟨fact, List.mem_append_left _ isFact, member⟩
  · rintro premises conclusion ⟨shape, isShape, values, fits, rfl⟩ premisesHave argument member
    obtain ⟨effectArgument, inEffect, rfl⟩ := List.mem_map.mp member
    cases effectArgument with
    | term kept =>
      have isEffect := List.mem_append_right facts (List.mem_map_of_mem (f := Prod.fst) isShape)
      exact List.mem_flatMap.mpr ⟨shape.1, isEffect, inEffect⟩
    | position index =>
      -- The value of a number is an argument of a premise.
      obtain ⟨place, atPlace⟩ := List.mem_iff_getElem?.mp inEffect
      obtain rfl := (wellNumbered shape isShape).ownPosition place index atPlace
      obtain ⟨condition, isCondition, occurs⟩ := (wellNumbered shape isShape).bound index atPlace
      obtain ⟨condIndex, isCondition⟩ := List.mem_iff_getElem?.mp isCondition
      have ⟨sameLength, inZip⟩ := List.forall₂_iff_zip.mp fits
      have inPremises : condIndex < premises.length := by
        have := (List.getElem?_eq_some_iff.mp isCondition).1
        omega
      have isPair := mem_zip_of_getElem? isCondition (List.getElem?_eq_getElem inPremises)
      have ⟨isMatch, agrees⟩ := atomFits_iff.mp (inZip isPair)
      obtain ⟨⟨_, object⟩, isBinding, rfl⟩ := List.mem_map.mp ((mem_keys_getBindings isMatch.sameLength).mpr occurs)
      have isValue : values _ = object := agrees _ isBinding
      obtain ⟨_, _, isObject⟩ := mem_getBindings.mp isBinding
      have isPremise := List.getElem_mem inPremises
      simp only [BuildArgument.value, isValue]
      exact premisesHave _ isPremise object (List.mem_of_getElem? isObject)

/-- How often the loop runs at most. -/
def loopBound (facts : List (BuildAtom Pred Var Obj)) (shapes : List (Shape Pred Var Obj)) : ℕ :=
  facts.length + (herbrandAtoms (programObjects facts shapes) shapes).length

/-! ## The loop -/

/-- What holds before each round of the loop. -/
structure Computing (arity : Pred → ℕ) (facts : List (BuildAtom Pred Var Obj))
    (shapes : List (Shape Pred Var Obj)) (state : ModelState Pred Var Obj) : Prop where
  remembers : ∃ seen, Remembers shapes state.rules (state.queue.queue.take state.queue.queuePos) seen
  consistent : state.queue.Consistent
  inRange : state.queue.queuePos ≤ state.queue.queue.length
  saturating : Saturating {fact | fact ∈ facts} (InfersAny shapes) (state.queue.queue.take state.queue.queuePos)
    (state.queue.queue.drop state.queue.queuePos)
  derived : ∃ derived, state.queue.queue = facts ++ derived ∧ derived.Nodup ∧ ∀ atom ∈ derived, atom ∉ facts

variable {arity : Pred → ℕ} {facts : List (BuildAtom Pred Var Obj)}
  {shapes : List (Shape Pred Var Obj)}

theorem sized_of_follows (factsSized : ∀ fact ∈ facts, Sized arity fact) (sized : ShapesSized arity shapes) (follows : Follows {fact | fact ∈ facts} (InfersAny shapes) atom) :
    Sized arity atom := by
  refine follows.least {atom | Sized arity atom} factsSized ?_
  rintro premises conclusion ⟨shape, isShape, values, _, rfl⟩ _
  exact sized_effectUnder (sized.effect shape isShape) values

/-- What is derived by a rule and is no fact is one of finitely many atoms. -/
theorem mem_herbrandAtoms_of_follows (wellNumbered : ∀ shape ∈ shapes, WellNumbered shape.1 shape.2) (follows : Follows {fact | fact ∈ facts} (InfersAny shapes) atom)
    (noFact : atom ∉ facts) : atom ∈ herbrandAtoms (programObjects facts shapes) shapes := by
  have inObjects := args_mem_programObjects wellNumbered follows
  cases follows with
  | given isFact => exact absurd isFact noFact
  | inferred inference _ =>
    obtain ⟨shape, isShape, values, _, rfl⟩ := inference
    exact mem_herbrandAtoms isShape (by simp) inObjects

theorem Computing.length_le {state : ModelState Pred Var Obj} (computing : Computing arity facts shapes state)
    (wellNumbered : ∀ shape ∈ shapes, WellNumbered shape.1 shape.2) :
    state.queue.queue.length ≤ loopBound facts shapes := by
  obtain ⟨derived, isQueue, nodup, noFacts⟩ := computing.derived
  have inHerbrand : derived ⊆ herbrandAtoms (programObjects facts shapes) shapes := by
    intro atom member
    apply mem_herbrandAtoms_of_follows wellNumbered _ (noFacts atom member)
    apply computing.saturating.follow
    rw [List.take_append_drop, isQueue]
    exact List.mem_append_right _ member
  have fewer := (List.subperm_of_subset nodup inHerbrand).length_le
  rw [isQueue, List.length_append, loopBound]
  omega

/-- One round of the loop. -/
theorem Computing.processAtom {initialRules : List (BuildRule Pred Var Obj)}
    (initialShapes : initialRules.map BuildRule.shape = shapes) (factsSized : ∀ fact ∈ facts, Sized arity fact)
    (sized : ShapesSized arity shapes) {state : ModelState Pred Var Obj}
    (computing : Computing arity facts shapes state) {next : BuildAtom Pred Var Obj}
    (isNext : state.queue.queue[state.queue.queuePos]? = some next) :
    Computing arity facts shapes (processAtom (buildUnifier initialRules) next state) ∧
      (processAtom (buildUnifier initialRules) next state).queue.queuePos = state.queue.queuePos + 1 := by
  obtain ⟨seen, remembers⟩ := computing.remembers
  obtain ⟨inQueue, isElement⟩ := List.getElem?_eq_some_iff.mp isNext
  have dropped : state.queue.queue.drop state.queue.queuePos =
      next :: state.queue.queue.drop (state.queue.queuePos + 1) := by
    rw [List.drop_eq_getElem_cons inQueue, isElement]
  have taken : state.queue.queue.take (state.queue.queuePos + 1) =
      state.queue.queue.take state.queue.queuePos ++ [next] := by
    rw [List.take_add_one, isNext]
    rfl
  have saturating := computing.saturating
  rw [dropped] at saturating
  have nextSized : Sized arity next := sized_of_follows factsSized sized (saturating.follow next (by simp))
  obtain ⟨remembersNext, concludes⟩ := remembers.next initialShapes sized nextSized
  rw [Translate.processAtom, foldl_processMatch]
  generalize fireAll next (unify (buildUnifier initialRules) next) state.rules = result at remembersNext concludes
  obtain ⟨rules, fired⟩ := result
  dsimp only at remembersNext concludes ⊢
  have consistent : ({ state.queue with queuePos := state.queue.queuePos + 1 } : Queue _ _ _).Consistent :=
    computing.consistent
  obtain ⟨added, pushed⟩ := Queue.exists_pushed fired consistent
  have isQueue := pushed.queue
  have isPos := pushed.queuePos
  have allKnown := pushed.all
  dsimp only at isQueue isPos
  generalize Queue.pushAll _ fired = queue at pushed isQueue isPos allKnown ⊢
  have takenNow : queue.queue.take queue.queuePos = state.queue.queue.take state.queue.queuePos ++ [next] := by
    rw [isPos, isQueue, List.take_append_of_le_length (by omega), taken]
  have droppedNow : queue.queue.drop queue.queuePos = state.queue.queue.drop (state.queue.queuePos + 1) ++ added := by
    rw [isPos, isQueue, List.drop_append_of_le_length (by omega)]
  refine ⟨⟨⟨_, takenNow ▸ remembersNext⟩, pushed.consistent, ?_, ?_, ?_⟩, isPos⟩
  · rw [isPos, isQueue, List.length_append]
    omega
  · rw [takenNow, droppedNow]
    apply saturating.step concludes (fun atom member => (pushed.new atom member).1)
    intro atom member
    have known := allKnown atom member
    rw [isQueue, ← List.take_append_drop state.queue.queuePos state.queue.queue, dropped, List.mem_append] at known
    exact known
  · obtain ⟨derived, isOld, nodup, noFacts⟩ := computing.derived
    refine ⟨derived ++ added, by rw [isQueue, isOld, List.append_assoc], ?_, ?_⟩
    · refine List.nodup_append.mpr ⟨nodup, pushed.nodup, ?_⟩
      rintro atom isDerived _ isAdded rfl
      apply (pushed.new atom isAdded).2
      rw [isOld]
      exact List.mem_append_right _ isDerived
    · intro atom member
      cases List.mem_append.mp member with
      | inl old => exact noFacts atom old
      | inr isAdded =>
        intro isFact
        apply (pushed.new atom isAdded).2
        rw [isOld]
        exact List.mem_append_left _ isFact

/-- With enough fuel the loop ends, and the queue has what follows. -/
theorem Computing.modelLoop {initialRules : List (BuildRule Pred Var Obj)}
    (initialShapes : initialRules.map BuildRule.shape = shapes) (factsSized : ∀ fact ∈ facts, Sized arity fact)
    (sized : ShapesSized arity shapes) (wellNumbered : ∀ shape ∈ shapes, WellNumbered shape.1 shape.2) {fuel : ℕ}
    {state : ModelState Pred Var Obj} (computing : Computing arity facts shapes state)
    (enough : loopBound facts shapes ≤ state.queue.queuePos + fuel) :
    ∃ derived, modelLoop (buildUnifier initialRules) fuel state = some (facts ++ derived) ∧ derived.Nodup ∧
      (∀ atom ∈ derived, atom ∉ facts) ∧
      ∀ atom, atom ∈ facts ++ derived ↔ Follows {fact | fact ∈ facts} (InfersAny shapes) atom := by
  induction fuel generalizing state with
  | zero =>
    have isEnd : state.queue.queue.length ≤ state.queue.queuePos := by
      have := computing.length_le wellNumbered
      omega
    obtain ⟨derived, isQueue, nodup, noFacts⟩ := computing.derived
    have saturating := computing.saturating
    rw [List.take_of_length_le isEnd, List.drop_of_length_le isEnd, isQueue] at saturating
    refine ⟨derived, ?_, nodup, noFacts, saturating.finish⟩
    rw [Translate.modelLoop, List.getElem?_eq_none isEnd, isQueue]
  | succ fuel inductionHypothesis =>
    cases isNext : state.queue.queue[state.queue.queuePos]? with
    | none =>
      have isEnd := List.getElem?_eq_none_iff.mp isNext
      obtain ⟨derived, isQueue, nodup, noFacts⟩ := computing.derived
      have saturating := computing.saturating
      rw [List.take_of_length_le isEnd, List.drop_of_length_le isEnd, isQueue] at saturating
      refine ⟨derived, ?_, nodup, noFacts, saturating.finish⟩
      rw [Translate.modelLoop, isNext, isQueue]
    | some next =>
      obtain ⟨stillComputing, isPos⟩ := computing.processAtom initialShapes factsSized sized isNext
      obtain ⟨derived, isModel, rest⟩ := inductionHypothesis stillComputing (by omega)
      refine ⟨derived, ?_, rest⟩
      rw [Translate.modelLoop, isNext, ← isModel]

end Run

end CutPlan.Translate
