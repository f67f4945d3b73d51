import CutPlan.Lib.CallSequences
import CutPlan.Search.Linearisation
import CutPlan.Search.StateIdentity

/-! # The metric of registered states

The vector beside a state decides what the metric of the state is.  A call that reaches a registered
state again compares, and then one of two conditionals has the last word.
-/

namespace CutPlan.Search

open CutPlan.Lib CutPlan.Sas

namespace RegistryGlobals

variable {N : Type} (globals : RegistryGlobals N)

/-! ## Slots -/

/-- The slots of a type count its variables in order. -/
theorem getElem?_varsOfType_slot {var : ℕ} (bound : var < globals.numericVarTypes.length) :
    (globals.varsOfType (globals.numericType var))[globals.slot var]? = some var := by
  have split : List.range globals.numericVarTypes.length =
      List.range var ++ (List.range' var (globals.numericVarTypes.length - var)) := by
    have joined : List.range' 0 var ++ List.range' (0 + var) (globals.numericVarTypes.length - var) =
        List.range' 0 (var + (globals.numericVarTypes.length - var)) := List.range'_append_1
    rw [Nat.zero_add, Nat.add_sub_cancel' bound.le] at joined
    rw [List.range_eq_range', List.range_eq_range', joined]
  obtain ⟨rest, count⟩ : ∃ rest, globals.numericVarTypes.length - var = rest + 1 :=
    ⟨globals.numericVarTypes.length - var - 1, by omega⟩
  have before : globals.slot var = ((List.range var).filter fun other =>
      globals.numericType other = globals.numericType var).length := by
    rw [slot, List.countP_eq_length_filter]
  rw [varsOfType, split, count, List.range'_succ, List.filter_append, before,
    List.getElem?_append_right le_rfl]
  simp

theorem slot_inj {first second : ℕ} (same : globals.numericType first = globals.numericType second)
    (known : globals.numericType first ≠ .unknown)
    (equal : globals.slot first = globals.slot second) : first = second := by
  have firstBound := globals.numericType_lt rfl known
  have secondBound := globals.numericType_lt same.symm known
  have firstVar := globals.getElem?_varsOfType_slot firstBound
  have secondVar := globals.getElem?_varsOfType_slot secondBound
  rw [same, equal, secondVar] at firstVar
  exact (Option.some.inj firstVar).symm

theorem slot_lt_varsOfType {var : ℕ} {type : NumType} (isType : globals.numericType var = type)
    (known : type ≠ .unknown) : globals.slot var < (globals.varsOfType type).length := by
  subst isType
  exact (List.getElem?_eq_some_iff.mp
    (globals.getElem?_varsOfType_slot (globals.numericType_lt rfl known))).1

end RegistryGlobals

/-! ## Arithmetic axioms -/

/-- A task whose arithmetic axioms are evaluated in the order of their layers, and whose metric is a
variable that has a value. -/
structure MeteredTask (N : Type) extends RegistryTask N where
  assAxioms : List AssignmentAxiom
  calculate : AssignmentAxiom → N → N → N
  evaluateArithmeticAxioms_eq : ∀ numericState, evaluateArithmeticAxioms numericState =
    assAxioms.foldl (writeAxiom calculate) numericState
  layer : ℕ → ℕ
  ordered : InLayerOrder assAxioms toRegistryTask.numericType layer
  assAxioms_derived : ∀ assAxiom ∈ assAxioms, toRegistryTask.numericType assAxiom.affectedVariable = .derived
  assAxioms_known : ∀ assAxiom ∈ assAxioms, ∀ operand ∈ [assAxiom.varLhs, assAxiom.varRhs],
    toRegistryTask.numericType operand ≠ .unknown
  metricFluent_known : toRegistryTask.numericType metricFluent ≠ .unknown
  metricFluent_defined : toRegistryTask.numericType metricFluent = .derived →
    ∃ assAxiom ∈ assAxioms, assAxiom.affectedVariable = metricFluent

namespace MeteredTask

variable {N : Type} (task : MeteredTask N)

/-- The two assign the same value to every variable that is neither derived nor unknown. -/
def AgreeOnStored (first second : ℕ → N) : Prop :=
  ∀ var, task.numericType var ≠ .derived → task.numericType var ≠ .unknown → first var = second var

theorem evaluateArithmeticAxioms_of_not_derived {var : ℕ} (stored : task.numericType var ≠ .derived)
    (numericState : ℕ → N) : task.evaluateArithmeticAxioms numericState var = numericState var := by
  rw [task.evaluateArithmeticAxioms_eq]
  apply foldl_writeAxiom_of_unwritten
  rintro assAxiom member rfl
  exact stored (task.assAxioms_derived assAxiom member)

/-- The values of derived variables do not depend on what they were before. -/
theorem evaluateArithmeticAxioms_derived {first second : ℕ → N}
    (agree : task.AgreeOnStored first second) : ∀ (bound var : ℕ), task.layer var < bound →
      (∃ assAxiom ∈ task.assAxioms, assAxiom.affectedVariable = var) →
      task.evaluateArithmeticAxioms first var = task.evaluateArithmeticAxioms second var := by
  intro bound
  induction bound with
  | zero => omega
  | succ bound inductionHypothesis =>
    intro var lower written
    obtain ⟨last, isLast, rfl⟩ := exists_lastWriter written
    -- operands are stored or derived in a lower layer
    have operands : ∀ operand ∈ [last.varLhs, last.varRhs],
        task.evaluateArithmeticAxioms first operand =
          task.evaluateArithmeticAxioms second operand := by
      intro operand isOperand
      by_cases derived : task.numericType operand = .derived
      · have below := task.ordered.descends last isLast.mem operand isOperand derived
        exact inductionHypothesis operand (by omega)
          (task.ordered.defined last isLast.mem operand isOperand derived)
      · rw [task.evaluateArithmeticAxioms_of_not_derived derived,
          task.evaluateArithmeticAxioms_of_not_derived derived]
        exact agree operand derived (task.assAxioms_known last isLast.mem operand isOperand)
    have left := operands last.varLhs (by simp)
    have right := operands last.varRhs (by simp)
    rw [task.evaluateArithmeticAxioms_eq, task.evaluateArithmeticAxioms_eq] at left right ⊢
    rw [foldl_writeAxiom_lastWriter task.calculate task.ordered task.assAxioms_derived isLast,
      foldl_writeAxiom_lastWriter task.calculate task.ordered task.assAxioms_derived isLast, left,
      right]

theorem evaluateMetric_congr {first second : ℕ → N} (agree : task.AgreeOnStored first second) :
    task.evaluateMetric (task.evaluateArithmeticAxioms first) =
      task.evaluateMetric (task.evaluateArithmeticAxioms second) := by
  unfold RegistryTask.evaluateMetric
  by_cases derived : task.numericType task.metricFluent = .derived
  · exact task.evaluateArithmeticAxioms_derived agree _ _ (Nat.lt_succ_self _)
      (task.metricFluent_defined derived)
  · rw [task.evaluateArithmeticAxioms_of_not_derived derived,
      task.evaluateArithmeticAxioms_of_not_derived derived]
    exact agree _ derived task.metricFluent_known

/-! ## Numeric values and where they are stored -/

/-- The values of the stored variables can be read from a state and the vector beside it. -/
structure Stores (values : ℕ → ContainerInt) (instrumentation : List N) (numericState : ℕ → N) :
    Prop where
  length_eq : instrumentation.length = (task.varsOfType .instrumentation).length
  instrumentation : ∀ var, task.numericType var = .instrumentation →
    instrumentation.getD (task.numericIndex var) task.format.zero = numericState var
  constant : ∀ var, task.numericType var = .constant →
    task.initialStateNumeric var = numericState var
  regular : ∀ var, task.numericType var = .regular →
    task.format.unpackDouble (values (task.numericIndex var)) = numericState var

variable {task} {values : ℕ → ContainerInt} {instrumentation : List N} {numericState : ℕ → N}

theorem domain_le_numericIndex {var : ℕ} (regular : task.numericType var = .regular) :
    task.variableDomain.length ≤ task.numericIndex var := by
  simp [RegistryGlobals.numericIndex, regular]

theorem numericIndex_inj {first second : ℕ} {type : NumType}
    (firstType : task.numericType first = type) (secondType : task.numericType second = type)
    (known : type ≠ .unknown) (equal : task.numericIndex first = task.numericIndex second) :
    first = second := by
  apply task.slot_inj (firstType.trans secondType.symm) (firstType ▸ known)
  cases type <;> simp [RegistryGlobals.numericIndex, firstType, secondType] at equal <;> exact equal

/-- Writes to logic variables keep the numeric ones. -/
theorem Stores.updateAll (stores : task.Stores values instrumentation numericState)
    {writes : List Write} (logic : ∀ write ∈ writes, write.1 < task.variableDomain.length) :
    task.Stores (CutPlan.Search.updateAll values writes) instrumentation numericState where
  length_eq := stores.length_eq
  instrumentation := stores.instrumentation
  constant := stores.constant
  regular := by
    intro var regular
    have above := domain_le_numericIndex regular
    rw [updateAll_of_not_written fun write member => by have := logic write member; omega]
    exact stores.regular var regular

/-- A state and its vector store what `get_numeric_vars` answers. -/
theorem stores_getNumericVars (buffer : List Bin)
    (sized : instrumentation.length = (task.varsOfType .instrumentation).length) :
    task.Stores (task.packer.get buffer) instrumentation
      (task.getNumericVars buffer instrumentation) := by
  constructor
  · exact sized
  all_goals
    intro var type
    rw [RegistryTask.getNumericVars,
      task.evaluateArithmeticAxioms_of_not_derived (by rw [type]; decide)]
    simp only [type]

theorem Stores.metric {buffer : List Bin}
    (stores : task.Stores (task.packer.get buffer) instrumentation numericState) :
    task.evaluateMetric (task.getNumericVars buffer instrumentation) =
      task.evaluateMetric (task.evaluateArithmeticAxioms numericState) := by
  apply task.evaluateMetric_congr
  intro var notDerived known
  cases type : task.numericType var with
  | instrumentation => simpa only [type] using stores.instrumentation var type
  | constant => simpa only [type] using stores.constant var type
  | regular => simpa only [type] using stores.regular var type
  | derived => exact absurd type notDerived
  | unknown => exact absurd type known

theorem updateAll_concat (values : ℕ → ContainerInt) (writes : List Write) (write : Write) :
    CutPlan.Search.updateAll values (writes ++ [write]) =
      Function.update (CutPlan.Search.updateAll values writes) write.1 write.2 := by
  simp [CutPlan.Search.updateAll]

/-- An assign effect changes the number and the place where it is stored. -/
theorem Stores.applyAssignEffect (previousBuffer : List Bin) {part : RegistryTask.NumericPart N}
    (stores : task.Stores (CutPlan.Search.updateAll values part.writes) part.metricPart
      part.predecessorVals) (effect : AssignEffect) :
    task.Stores
      (CutPlan.Search.updateAll values (task.applyAssignEffect previousBuffer part effect).writes)
      (task.applyAssignEffect previousBuffer part effect).metricPart
      (task.applyAssignEffect previousBuffer part effect).predecessorVals := by
  obtain ⟨sized, inVector, inConstants, inBuffer⟩ := stores
  unfold RegistryTask.applyAssignEffect
  cases written : task.numericType effect.affVar with
  | instrumentation =>
    refine ⟨by simpa using sized, fun var type => ?_, fun var type => ?_, fun var type => ?_⟩
    · by_cases same : var = effect.affVar
      · have bound : task.numericIndex var < part.metricPart.length := by
          have inSlots := task.slot_lt_varsOfType type (by decide)
          simpa [RegistryGlobals.numericIndex, type, sized] using inSlots
        subst same
        simp [bound]
      · have apart : task.numericIndex effect.affVar ≠ task.numericIndex var :=
          fun equal => same (numericIndex_inj type written (by decide) equal.symm)
        simpa [same, apart] using inVector var type
    · have other : var ≠ effect.affVar := fun same => by simp [← same, type] at written
      simpa [other] using inConstants var type
    · have other : var ≠ effect.affVar := fun same => by simp [← same, type] at written
      simpa [other] using inBuffer var type
  | regular =>
    refine ⟨sized, fun var type => ?_, fun var type => ?_, fun var type => ?_⟩
    · have other : var ≠ effect.affVar := fun same => by simp [← same, type] at written
      simpa [other] using inVector var type
    · have other : var ≠ effect.affVar := fun same => by simp [← same, type] at written
      simpa [other] using inConstants var type
    · simp only [updateAll_concat]
      by_cases same : var = effect.affVar
      · subst same
        simp [task.format.unpack_pack]
      · have apart : task.numericIndex var ≠ task.numericIndex effect.affVar :=
          fun equal => same (numericIndex_inj type written (by decide) equal)
        simpa [same, apart] using inBuffer var type
  | constant | derived | unknown => exact ⟨sized, inVector, inConstants, inBuffer⟩

theorem Stores.foldl_applyAssignEffect (previousBuffer : List Bin) (effects : List AssignEffect) :
    ∀ part : RegistryTask.NumericPart N,
      task.Stores (CutPlan.Search.updateAll values part.writes) part.metricPart
        part.predecessorVals →
      task.Stores
        (CutPlan.Search.updateAll values
          (effects.foldl (task.applyAssignEffect previousBuffer) part).writes)
        (effects.foldl (task.applyAssignEffect previousBuffer) part).metricPart
        (effects.foldl (task.applyAssignEffect previousBuffer) part).predecessorVals := by
  induction effects with
  | nil => exact fun _ stores => stores
  | cons effect effects inductionHypothesis =>
    exact fun part stores => inductionHypothesis _ (stores.applyAssignEffect previousBuffer effect)

/-- The axioms write logic variables only, so the packed draft stores the same numbers. -/
theorem Stores.packed {draft : RegistryTask.Draft N} (valid : draft.Valid task.toRegistryTask)
    (stores : task.Stores
      (CutPlan.Search.updateAll (task.packer.get draft.base) draft.writes) instrumentation
      numericState) :
    task.Stores (task.packer.get (task.packed draft)) instrumentation numericState := by
  rw [valid.get_packed]
  exact stores.updateAll fun write member => (task.evaluate_inRange _ _ write member).1

/-- The metric of a successor is that of the draft it was made from. -/
theorem metric_successorDraft {predecessor : List Bin} (clean : task.packer.Clean predecessor)
    (sized : instrumentation.length = (task.varsOfType .instrumentation).length)
    {op : GlobalOperator} (validOperator : task.ValidOperator op) :
    let draft := task.successorDraft predecessor instrumentation op
    draft.instrumentation.length = (task.varsOfType .instrumentation).length ∧
      task.evaluateMetric (task.getNumericVars (task.packed draft) draft.instrumentation) =
        task.evaluateMetric draft.numericVars := by
  intro draft
  -- the effects on logic variables come first
  let fired := (op.effects.filter fun effect => effect.conditions.all fun condition =>
    task.packer.get predecessor condition.var = BitVec.ofInt 64 condition.val).map
      fun effect => (effect.var, BitVec.ofInt 64 effect.val)
  have logic : ∀ write ∈ fired, write.1 < task.variableDomain.length := by
    intro write member
    obtain ⟨effect, isEffect, rfl⟩ := List.mem_map.mp member
    exact (validOperator effect (List.mem_of_mem_filter isEffect)).1
  have start := Stores.updateAll (stores_getNumericVars predecessor sized) logic
  have loop := start.foldl_applyAssignEffect predecessor op.assignEffects
    { predecessorVals := task.getNumericVars predecessor instrumentation
      metricPart := instrumentation }
  have stores := Stores.packed (RegistryTask.successorDraft_valid clean instrumentation validOperator)
    (by
      have joined : updateAll (task.packer.get draft.base) draft.writes = _ :=
        List.foldl_append
      rw [joined]
      exact loop)
  exact ⟨stores.length_eq, stores.metric⟩

/-- Writes to different variables all last. -/
theorem updateAll_map (key : ℕ → ℕ) (value : ℕ → ContainerInt) {vars : List ℕ}
    (inj : ∀ first ∈ vars, ∀ second ∈ vars, key first = key second → first = second) :
    ∀ (values : ℕ → ContainerInt), ∀ var ∈ vars,
      CutPlan.Search.updateAll values (vars.map fun var => (key var, value var)) (key var) =
        value var := by
  induction vars with
  | nil => simp
  | cons head vars inductionHypothesis =>
    intro values var member
    by_cases later : var ∈ vars
    · exact inductionHypothesis (fun first isFirst second isSecond =>
        inj first (List.mem_cons_of_mem _ isFirst) second (List.mem_cons_of_mem _ isSecond))
        (Function.update values (key head) (value head)) var later
    · have isHead : var = head := (List.mem_cons.mp member).resolve_right later
      subst isHead
      rw [List.map_cons, CutPlan.Search.updateAll, List.foldl_cons, ← CutPlan.Search.updateAll,
        updateAll_of_not_written]
      · simp
      · intro write isWrite same
        obtain ⟨other, isOther, rfl⟩ := List.mem_map.mp isWrite
        have equal := inj other (List.mem_cons_of_mem _ isOther) var List.mem_cons_self same
        exact later (equal ▸ isOther)

theorem metric_initialDraft :
    task.initialDraft.instrumentation.length = (task.varsOfType .instrumentation).length ∧
      task.evaluateMetric
          (task.getNumericVars (task.packed task.initialDraft) task.initialDraft.instrumentation) =
        task.evaluateMetric task.initialDraft.numericVars := by
  have regularVars : ∀ {var : ℕ}, var ∈ task.varsOfType .regular ↔
      task.numericType var = .regular := by
    intro var
    simp only [RegistryGlobals.varsOfType, List.mem_filter, List.mem_range, decide_eq_true_eq]
    exact ⟨And.right, fun type => ⟨task.numericType_lt type (by decide), type⟩⟩
  have start : task.Stores
      (updateAll (task.packer.get task.initialDraft.base) task.initialDraft.writes)
      task.initialDraft.instrumentation task.initialStateNumeric := by
    constructor
    · simp [RegistryTask.initialDraft, RegistryTask.freshDraft]
    · intro var type
      have place := task.getElem?_varsOfType_slot (task.numericType_lt type (by decide))
      rw [type] at place
      simp [RegistryTask.initialDraft, RegistryTask.freshDraft, RegistryGlobals.numericIndex, type,
        place]
    · exact fun _ _ => rfl
    · intro var type
      have written := updateAll_map task.numericIndex
        (fun var => task.format.packDouble (task.initialStateNumeric var))
        (fun first isFirst second isSecond =>
          numericIndex_inj (regularVars.mp isFirst) (regularVars.mp isSecond) (by decide))
        (updateAll (task.packer.get task.packer.zeroBuffer)
          (task.initialStateData.zipIdx.map fun item => (item.2, item.1)))
        var (regularVars.mpr type)
      have joined : updateAll (task.packer.get task.initialDraft.base) task.initialDraft.writes = _ :=
        List.foldl_append
      rw [joined]
      exact (congrArg task.format.unpackDouble written).trans (task.format.unpack_pack _)
  exact ⟨start.length_eq, (Stores.packed RegistryTask.initialDraft_valid start).metric⟩

end MeteredTask

namespace StateRegistry

/-! ## Calls -/

section Calls

variable {N : Type} [LT N] [DecidableLT N] {task : RegistryTask N} {registry : StateRegistry N}

/-- The second conditional has the last word, and it keeps the vector only when maximising. -/
theorem keepOrReplace_eq (minimizes : Bool) (registry : StateRegistry N) (id : ℕ)
    (oldVal newVal : N) (instrumentation : List N) :
    registry.keepOrReplace minimizes id oldVal newVal instrumentation =
      registry.setCost id (if minimizes = false ∧ newVal < oldVal then registry.costInformation id
        else instrumentation) := by
  unfold keepOrReplace
  cases minimizes <;> by_cases smaller : newVal < oldVal <;> by_cases larger : oldVal < newVal <;>
    simp [setCost, smaller, larger]

/-- The draft that a call completes. -/
def draftOf (task : RegistryTask N) (registry : StateRegistry N) (predecessor : ℕ)
    (op : GlobalOperator) : RegistryTask.Draft N :=
  task.successorDraft (registry.stateDataPool.getD predecessor [])
    (registry.costInformation predecessor) op

/-- Whether the vector of a registered state stays when a call reaches the state again. -/
def KeepsVector (task : RegistryTask N) (registry : StateRegistry N) (predecessor : ℕ)
    (op : GlobalOperator) (id : ℕ) : Prop :=
  id ≠ registry.stateDataPool.length - 1 ∧ task.metricMinimizes = false ∧
    task.evaluateMetric (registry.draftOf task predecessor op).numericVars <
      task.evaluateMetric (registry.numericVars task predecessor)

instance (predecessor : ℕ) (op : GlobalOperator) (id : ℕ) :
    Decidable (registry.KeepsVector task predecessor op id) :=
  inferInstanceAs (Decidable (_ ∧ _ ∧ _))

theorem getSuccessorState_fresh (consistent : registry.Consistent task) (predecessor : ℕ)
    (op : GlobalOperator)
    (fresh : task.packed (registry.draftOf task predecessor op) ∉ registry.stateDataPool) :
    registry.getSuccessorState task predecessor op =
      ({ registry with
          stateDataPool :=
            registry.stateDataPool ++ [task.packed (registry.draftOf task predecessor op)]
          registeredStates := List.range (registry.stateDataPool.length + 1)
          costInformation := Function.update registry.costInformation registry.stateDataPool.length
            (registry.draftOf task predecessor op).instrumentation },
        registry.stateDataPool.length) := by
  have inserted := consistent.insertIdOrPopState (task.packed (registry.draftOf task predecessor op))
  rw [intern_of_not_mem fresh] at inserted
  simp only [getSuccessorState, StateRegistry.register]
  rw [← draftOf, inserted]
  simp [setCost]

theorem getSuccessorState_found (consistent : registry.Consistent task) (predecessor : ℕ)
    (op : GlobalOperator) {id : ℕ}
    (found : registry.stateDataPool[id]? =
      some (task.packed (registry.draftOf task predecessor op))) :
    registry.getSuccessorState task predecessor op =
      ({ registry with
          costInformation := Function.update registry.costInformation id
            (if registry.KeepsVector task predecessor op id then registry.costInformation id
              else (registry.draftOf task predecessor op).instrumentation) }, id) := by
  have inserted := consistent.insertIdOrPopState (task.packed (registry.draftOf task predecessor op))
  rw [intern_of_getElem? consistent.nodup found, ← consistent.registered] at inserted
  simp only [getSuccessorState, StateRegistry.register]
  rw [← draftOf, inserted]
  simp only [keepOrReplace_eq, KeepsVector, numericVars]
  by_cases last : id = registry.stateDataPool.length - 1
  · simp [last, setCost]
  · simp [last, setCost]

end Calls

/-! ## Histories -/

/-- A registry and the ways in which its states were reached, each with the metric at its end. -/
structure History (N : Type) where
  registry : StateRegistry N
  ways : List (ℕ × N)

/-- The best values are the least or the greatest ones. -/
def IsBest {N : Type} [Preorder N] (minimizes : Bool) (metrics : Set N) (metric : N) : Prop :=
  if minimizes then IsLeast metrics metric else IsGreatest metrics metric

def Better {N : Type} [Preorder N] (minimizes : Bool) (first second : N) : Prop :=
  if minimizes then first ≤ second else second ≤ first

section Best

variable {N : Type} [Preorder N] {minimizes : Bool} {metrics : Set N} {metric other : N}

theorem isBest_iff : IsBest minimizes metrics metric ↔
    metric ∈ metrics ∧ ∀ other ∈ metrics, Better minimizes metric other := by
  cases minimizes <;> exact Iff.rfl

theorem Better.refl (minimizes : Bool) (metric : N) : Better minimizes metric metric := by
  cases minimizes <;> exact le_refl metric

theorem Better.trans {first second third : N} (firstSecond : Better minimizes first second)
    (secondThird : Better minimizes second third) : Better minimizes first third := by
  cases minimizes with
  | true => exact le_trans firstSecond secondThird
  | false => exact le_trans secondThird firstSecond

theorem isBest_singleton (minimizes : Bool) (metric : N) : IsBest minimizes {metric} metric := by
  rw [isBest_iff]
  refine ⟨rfl, fun other member => ?_⟩
  rw [Set.mem_singleton_iff.mp member]
  exact .refl minimizes metric

/-- The old value stays the best of one more exactly if it is the better one. -/
theorem IsBest.insert_iff_old (best : IsBest minimizes metrics metric) :
    IsBest minimizes (insert other metrics) metric ↔ Better minimizes metric other := by
  rw [isBest_iff] at best ⊢
  constructor
  · exact fun after => after.2 other (Set.mem_insert _ _)
  · intro better
    refine ⟨Set.mem_insert_of_mem _ best.1, fun any member => ?_⟩
    cases member with
    | inl isOther => exact isOther ▸ better
    | inr before => exact best.2 any before

/-- The new value is the best exactly if it is the better one. -/
theorem IsBest.insert_iff_new (best : IsBest minimizes metrics metric) :
    IsBest minimizes (insert other metrics) other ↔ Better minimizes other metric := by
  rw [isBest_iff] at best ⊢
  constructor
  · exact fun after => after.2 metric (Set.mem_insert_of_mem _ best.1)
  · intro better
    refine ⟨Set.mem_insert _ _, fun any member => ?_⟩
    cases member with
    | inl isOther => exact isOther ▸ .refl minimizes other
    | inr before => exact better.trans (best.2 any before)

end Best

namespace History

variable {N : Type} [Preorder N] [DecidableLT N] (task : MeteredTask N)

def start : History N :=
  let answer := ({} : StateRegistry N).getInitialState task.toRegistryTask
  { registry := answer.1
    ways := [(answer.2, task.evaluateMetric task.initialDraft.numericVars)] }

/-- The metric of the way that a call takes. -/
def wayMetric (history : History N) (call : ℕ × GlobalOperator) : N :=
  task.evaluateMetric
    (history.registry.draftOf task.toRegistryTask call.1 call.2).numericVars

/-- A call of `get_successor_state`. -/
def step (history : History N) (call : ℕ × GlobalOperator) : History N :=
  let answer := history.registry.getSuccessorState task.toRegistryTask call.1 call.2
  { registry := answer.1
    ways := history.ways ++ [(answer.2, history.wayMetric task call)] }

/-- What the stored vector of a state evaluates to. -/
def metricOf (history : History N) (id : ℕ) : N :=
  task.evaluateMetric (history.registry.numericVars task.toRegistryTask id)

/-- The metrics of all ways in which a state was reached. -/
def waysOf (history : History N) (id : ℕ) : Set N := {metric | (id, metric) ∈ history.ways}

def RetainsBest (history : History N) : Prop :=
  ∀ id < history.registry.stateDataPool.length,
    IsBest task.metricMinimizes (history.waysOf id) (history.metricOf task id)

/-- The call starts in a registered state with an operator that was checked when it was read. -/
def ValidCall (history : History N) (call : ℕ × GlobalOperator) : Prop :=
  call.1 < history.registry.stateDataPool.length ∧ task.ValidOperator call.2

/-- If a call reaches a registered state again, then the vector that stays is the better one. -/
def KeepsBetter (history : History N) (call : ℕ × GlobalOperator) : Prop :=
  ∀ id, history.registry.stateDataPool[id]? =
      some (task.packed (history.registry.draftOf task.toRegistryTask call.1 call.2)) →
    if history.registry.KeepsVector task.toRegistryTask call.1 call.2 id then
      Better task.metricMinimizes (history.metricOf task id) (history.wayMetric task call)
    else Better task.metricMinimizes (history.wayMetric task call) (history.metricOf task id)

/-- Every registered state has a vector of the right length, and every way ends in a registered
state. -/
structure Sound (history : History N) : Prop where
  consistent : history.registry.Consistent task.toRegistryTask
  sized : ∀ id < history.registry.stateDataPool.length,
    (history.registry.costInformation id).length = (task.varsOfType .instrumentation).length
  ways_lt : ∀ way ∈ history.ways, way.1 < history.registry.stateDataPool.length

variable {task}

/-- What is known of the draft of a valid call. -/
theorem Sound.draft {history : History N} (sound : history.Sound task) {call : ℕ × GlobalOperator}
    (valid : history.ValidCall task call) :
    (history.registry.draftOf task.toRegistryTask call.1 call.2).Valid task.toRegistryTask ∧
      (history.registry.draftOf task.toRegistryTask call.1 call.2).instrumentation.length =
        (task.varsOfType .instrumentation).length ∧
      task.evaluateMetric (task.getNumericVars
          (task.packed (history.registry.draftOf task.toRegistryTask call.1 call.2))
          (history.registry.draftOf task.toRegistryTask call.1 call.2).instrumentation) =
        history.wayMetric task call := by
  obtain ⟨bound, validOperator⟩ := valid
  have clean : task.packer.Clean (history.registry.stateDataPool.getD call.1 []) := by
    have member := sound.consistent.clean history.registry.stateDataPool[call.1]
      (List.getElem_mem bound)
    simpa [bound] using member
  obtain ⟨sized, metric⟩ :=
    MeteredTask.metric_successorDraft clean (sound.sized call.1 bound) validOperator
  exact ⟨RegistryTask.successorDraft_valid clean _ validOperator, sized, metric⟩

/-! ## One call -/

/-- What a call changes: the vector and the ways of one state. -/
structure Changes (history next : History N) (id : ℕ) (vector : List N) (metric : N) : Prop where
  cost : next.registry.costInformation = Function.update history.registry.costInformation id vector
  ways : next.ways = history.ways ++ [(id, metric)]
  pool : history.registry.stateDataPool <+: next.registry.stateDataPool

variable {history next : History N} {id : ℕ} {vector : List N} {metric : N}

omit [DecidableLT N] in
theorem Changes.waysOf_self (changes : Changes history next id vector metric) :
    next.waysOf id = insert metric (history.waysOf id) := by
  ext other
  simp [waysOf, changes.ways, or_comm]

variable (task) in
omit [DecidableLT N] in
theorem Changes.metricOf_self (changes : Changes history next id vector metric) {buffer : List Bin}
    (found : next.registry.stateDataPool[id]? = some buffer) :
    next.metricOf task id = task.evaluateMetric (task.getNumericVars buffer vector) := by
  simp [metricOf, numericVars, found, changes.cost]

variable (task) in
omit [DecidableLT N] in
/-- The other states keep their metric and their ways. -/
theorem Changes.isBest_of_ne (changes : Changes history next id vector metric) {other : ℕ}
    (different : other ≠ id) (bound : other < history.registry.stateDataPool.length) :
    next.waysOf other = history.waysOf other ∧
      next.metricOf task other = history.metricOf task other := by
  constructor
  · ext way
    simp [waysOf, changes.ways, different]
  · obtain ⟨rest, extended⟩ := changes.pool
    simp [metricOf, numericVars, changes.cost, different, ← extended, List.getElem?_append_left bound]

/-- A state that was not there before. -/
theorem Sound.changes_fresh (sound : history.Sound task) {call : ℕ × GlobalOperator}
    (fresh : task.packed (history.registry.draftOf task.toRegistryTask call.1 call.2) ∉
      history.registry.stateDataPool) :
    Changes history (history.step task call) history.registry.stateDataPool.length
        (history.registry.draftOf task.toRegistryTask call.1 call.2).instrumentation
        (history.wayMetric task call) ∧
      (history.step task call).registry.stateDataPool = history.registry.stateDataPool ++
        [task.packed (history.registry.draftOf task.toRegistryTask call.1 call.2)] := by
  have answer := getSuccessorState_fresh sound.consistent call.1 call.2 fresh
  simp only [step, answer]
  exact ⟨⟨rfl, rfl, List.prefix_append _ _⟩, trivial⟩

/-- A state that was there before. -/
theorem Sound.changes_found (sound : history.Sound task) {call : ℕ × GlobalOperator}
    (found : history.registry.stateDataPool[id]? =
      some (task.packed (history.registry.draftOf task.toRegistryTask call.1 call.2))) :
    Changes history (history.step task call) id
        (if history.registry.KeepsVector task.toRegistryTask call.1 call.2 id then
          history.registry.costInformation id
        else (history.registry.draftOf task.toRegistryTask call.1 call.2).instrumentation)
        (history.wayMetric task call) ∧
      (history.step task call).registry.stateDataPool = history.registry.stateDataPool := by
  have answer := getSuccessorState_found sound.consistent call.1 call.2 found
  simp only [step, answer]
  exact ⟨⟨rfl, rfl, List.prefix_refl _⟩, trivial⟩

theorem Sound.step (sound : history.Sound task) {call : ℕ × GlobalOperator}
    (valid : history.ValidCall task call) : (history.step task call).Sound task := by
  obtain ⟨draftValid, draftSized, -⟩ := sound.draft valid
  have consistent : (history.step task call).registry.Consistent task.toRegistryTask :=
    (sound.consistent.register draftValid fun registry _ =>
      task.evaluateMetric (registry.numericVars task.toRegistryTask call.1)).1
  by_cases present : task.packed (history.registry.draftOf task.toRegistryTask call.1 call.2) ∈
      history.registry.stateDataPool
  · obtain ⟨id, found⟩ := List.mem_iff_getElem?.mp present
    have idBound := (List.getElem?_eq_some_iff.mp found).1
    obtain ⟨changes, pool⟩ := sound.changes_found found
    refine ⟨consistent, fun other bound => ?_, fun way member => ?_⟩
    · rw [pool] at bound
      rw [changes.cost]
      by_cases same : other = id
      · rw [same, Function.update_self]
        split
        · exact sound.sized id idBound
        · exact draftSized
      · rw [Function.update_of_ne same]
        exact sound.sized other bound
    · rw [changes.ways] at member
      rw [pool]
      cases List.mem_append.mp member with
      | inl before => exact sound.ways_lt way before
      | inr new => simpa [List.mem_singleton.mp new] using idBound
  · obtain ⟨changes, pool⟩ := sound.changes_fresh present
    refine ⟨consistent, fun other bound => ?_, fun way member => ?_⟩
    · rw [pool, List.length_append, List.length_singleton] at bound
      rw [changes.cost]
      by_cases same : other = history.registry.stateDataPool.length
      · rw [same, Function.update_self]
        exact draftSized
      · rw [Function.update_of_ne same]
        exact sound.sized other (by omega)
    · rw [changes.ways] at member
      rw [pool, List.length_append, List.length_singleton]
      cases List.mem_append.mp member with
      | inl before => exact (sound.ways_lt way before).trans (Nat.lt_succ_self _)
      | inr new => simp [List.mem_singleton.mp new]

/-- A call retains the best metrics exactly if the vector that stays is the better one. -/
theorem Sound.retainsBest_step_iff (sound : history.Sound task) {call : ℕ × GlobalOperator}
    (valid : history.ValidCall task call) (best : history.RetainsBest task) :
    (history.step task call).RetainsBest task ↔ history.KeepsBetter task call := by
  obtain ⟨-, -, draftMetric⟩ := sound.draft valid
  by_cases present : task.packed (history.registry.draftOf task.toRegistryTask call.1 call.2) ∈
      history.registry.stateDataPool
  · obtain ⟨id, found⟩ := List.mem_iff_getElem?.mp present
    have idBound := (List.getElem?_eq_some_iff.mp found).1
    obtain ⟨changes, pool⟩ := sound.changes_found found
    have metric := changes.metricOf_self task (pool ▸ found)
    have own := best id idBound
    -- only the state that is reached has a new way
    have reduced : (history.step task call).RetainsBest task ↔
        IsBest task.metricMinimizes (insert (history.wayMetric task call) (history.waysOf id))
          ((history.step task call).metricOf task id) := by
      rw [← changes.waysOf_self]
      constructor
      · exact fun after => after id (pool ▸ idBound)
      · intro after other bound
        rw [pool] at bound
        by_cases same : other = id
        · exact same ▸ after
        · obtain ⟨ways, metrics⟩ := changes.isBest_of_ne task same bound
          rw [ways, metrics]
          exact best other bound
    have onlyOne : history.KeepsBetter task call ↔
        if history.registry.KeepsVector task.toRegistryTask call.1 call.2 id then
          Better task.metricMinimizes (history.metricOf task id) (history.wayMetric task call)
        else Better task.metricMinimizes (history.wayMetric task call)
          (history.metricOf task id) := by
      constructor
      · exact fun keeps => keeps id found
      · intro keeps other otherFound
        rw [(index_eq_iff sound.consistent.nodup otherFound found).mpr rfl]
        exact keeps
    rw [reduced, onlyOne, metric]
    by_cases keeps : history.registry.KeepsVector task.toRegistryTask call.1 call.2 id
    · have old : history.metricOf task id = task.evaluateMetric (task.getNumericVars
          (task.packed (history.registry.draftOf task.toRegistryTask call.1 call.2))
          (history.registry.costInformation id)) := by
        simp [metricOf, numericVars, found]
      simp only [if_pos keeps, ← old]
      exact own.insert_iff_old
    · simp only [if_neg keeps, draftMetric]
      exact own.insert_iff_new
  · obtain ⟨changes, pool⟩ := sound.changes_fresh present
    have found : (history.step task call).registry.stateDataPool[
        history.registry.stateDataPool.length]? =
          some (task.packed (history.registry.draftOf task.toRegistryTask call.1 call.2)) := by
      simp [pool]
    have metric := changes.metricOf_self task found
    have unseen : history.waysOf history.registry.stateDataPool.length = ∅ := by
      ext way
      refine iff_of_false (fun member => ?_) (Set.notMem_empty way)
      exact lt_irrefl _ (sound.ways_lt _ member)
    have keeps : history.KeepsBetter task call :=
      fun id isFound => absurd (List.mem_of_getElem? isFound) present
    refine iff_of_true ?_ keeps
    intro other bound
    rw [pool, List.length_append, List.length_singleton] at bound
    by_cases same : other = history.registry.stateDataPool.length
    · rw [same, changes.waysOf_self, unseen, metric, draftMetric]
      simpa using isBest_singleton task.metricMinimizes (history.wayMetric task call)
    · obtain ⟨ways, metrics⟩ := changes.isBest_of_ne task same (by omega)
      rw [ways, metrics]
      exact best other (by omega)

/-! ## Sequences of calls -/

theorem start_eq : start task =
    { registry :=
        { stateDataPool := [task.packed task.initialDraft]
          registeredStates := [0]
          cachedInitialState := some 0
          costInformation := Function.update (fun _ => []) 0 task.initialDraft.instrumentation }
      ways := [(0, task.evaluateMetric task.initialDraft.numericVars)] } := by
  have empty : ({} : StateRegistry N).Consistent task.toRegistryTask := .start
  have inserted := empty.insertIdOrPopState (task.packed task.initialDraft)
  rw [intern_of_not_mem List.not_mem_nil] at inserted
  simp only [start, getInitialState, inserted]
  simp [setCost, List.range_succ]

theorem start_sound : (start task).Sound task := by
  refine ⟨?_, ?_, ?_⟩
  · exact (Consistent.start.getInitialState rfl).1
  · intro id bound
    rw [start_eq] at bound ⊢
    rw [Nat.lt_one_iff.mp bound]
    simpa using MeteredTask.metric_initialDraft.1
  · rw [start_eq]
    simp

theorem start_retainsBest : (start task).RetainsBest task := by
  intro id bound
  rw [start_eq] at bound
  have ways : (start task).waysOf 0 = {task.evaluateMetric task.initialDraft.numericVars} := by
    ext metric
    simp [waysOf, start_eq]
  have metric : (start task).metricOf task 0 =
      task.evaluateMetric task.initialDraft.numericVars := by
    rw [start_eq]
    simpa [metricOf, numericVars] using MeteredTask.metric_initialDraft.2
  rw [Nat.lt_one_iff.mp bound, ways, metric]
  exact isBest_singleton _ _

/-- In every sequence of calls the best metrics are retained throughout exactly if every call that
reaches a state again leaves it the better vector. -/
theorem retainsBest_iff (task : MeteredTask N) (calls : List (ℕ × GlobalOperator))
    (valid : AtEveryCall (step task) (ValidCall task) (start task) calls) :
    AtEveryState (step task) (RetainsBest task) (start task) calls ↔
      AtEveryCall (step task) (KeepsBetter task) (start task) calls :=
  atEveryState_iff (fun _ _ sound callValid => sound.step callValid)
    (fun _ _ sound callValid best => sound.retainsBest_step_iff callValid best) calls (start task)
    start_sound start_retainsBest valid

/-! ### Tolls on a road -/

instance : Preorder (BitVec 64) where
  le_refl := fun number => le_refl number.toNat
  le_trans := fun first second third => le_trans (b := second.toNat)
  lt_iff_le_not_ge := fun first second => lt_iff_le_not_ge (a := first.toNat) (b := second.toNat)

def tollMetered (minimizes : Bool) : MeteredTask (BitVec 64) where
  toRegistryTask := tollTask minimizes
  assAxioms := []
  calculate := fun _ left _ => left
  evaluateArithmeticAxioms_eq := fun _ => rfl
  layer := fun _ => 0
  ordered := ⟨.nil, by simp, by simp⟩
  assAxioms_derived := by simp
  assAxioms_known := by simp
  metricFluent_known := by cases minimizes <;> decide
  metricFluent_defined := by cases minimizes <;> exact fun derived => absurd derived (by decide)

/-- To the first place for little, on to the second, and to the first place again for much. -/
def dearReturn : List (ℕ × GlobalOperator) := [(0, drive 1 1), (1, drive 2 1), (0, drive 1 2)]

theorem dearReturn_valid :
    AtEveryCall (step (tollMetered true)) (ValidCall (tollMetered true)) (start (tollMetered true))
      dearReturn :=
  ⟨⟨by decide +kernel, tollTask_validOperator true (.inl rfl) 1⟩,
    ⟨by decide +kernel, tollTask_validOperator true (.inr rfl) 1⟩,
    ⟨by decide +kernel, tollTask_validOperator true (.inl rfl) 2⟩, trivial⟩

theorem retainsBest_iff_dearReturn :
    AtEveryState (step (tollMetered true)) (RetainsBest (tollMetered true))
        (start (tollMetered true)) dearReturn ↔
      AtEveryCall (step (tollMetered true)) (KeepsBetter (tollMetered true))
        (start (tollMetered true)) dearReturn :=
  retainsBest_iff (tollMetered true) dearReturn dearReturn_valid

/-- The cheap way costs 1 and the dear one 5, and the vector of the dear one replaces the other. -/
theorem dearReturn_replacesBest :
    ¬ AtEveryState (step (tollMetered true)) (RetainsBest (tollMetered true))
      (start (tollMetered true)) dearReturn := by
  intro always
  have last := always.2.2.2 1 (by decide +kernel)
  obtain ⟨-, least⟩ := isBest_iff.mp last
  have cheap : (1, 1#64) ∈ (dearReturn.foldl (step (tollMetered true))
      (start (tollMetered true))).ways := by decide +kernel
  have dear : (dearReturn.foldl (step (tollMetered true)) (start (tollMetered true))).metricOf
      (tollMetered true) 1 = 5#64 := by decide +kernel
  have better : Better true 5#64 1#64 := dear ▸ least 1#64 cheap
  exact absurd better (by unfold Better; decide)

end History

end StateRegistry

end CutPlan.Search
