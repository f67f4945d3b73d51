import CutPlan.Lib.Interning
import CutPlan.Search.GlobalOperator
import CutPlan.Search.PackedStates

/-! # The state registry

`StateRegistry` keeps packed states in a pool and their positions in a hash set that compares through
the pool.  A new state is appended, completed in place and hashed last; a duplicate is popped again.
Instrumentation variables are not part of a state but stored beside it.  Numbers are known by their
packing and their order only, so that they may be floating point numbers.
-/

namespace CutPlan.Search

open CutPlan.Lib CutPlan.Sas

structure NumberFormat (N : Type) where
  zero : N
  packDouble : N → ContainerInt
  unpackDouble : ContainerInt → N
  assignEffect : FOperator → N → N → N
  unpack_pack : ∀ number, unpackDouble (packDouble number) = number

/-- The globals that the registry reads.  The axiom evaluators are given by what they compute: the
values of the numeric variables, and the writes of comparison and logic axioms. -/
structure RegistryGlobals (N : Type) where
  format : NumberFormat N
  variableDomain : List ContainerInt
  numericVarTypes : List NumType
  initialStateData : List ContainerInt
  initialStateNumeric : ℕ → N
  evaluateArithmeticAxioms : (ℕ → N) → ℕ → N
  evaluate : (ℕ → ContainerInt) → (ℕ → N) → List Write
  metricFluent : ℕ
  metricMinimizes : Bool

namespace RegistryGlobals

variable {N : Type} (globals : RegistryGlobals N)

def numericType (var : ℕ) : NumType := globals.numericVarTypes.getD var .unknown

/-- The ranges of the packer: the domains and a bin for every regular variable. -/
def ranges : List ContainerInt :=
  globals.variableDomain ++
    List.replicate (globals.numericVarTypes.count .regular) (BitVec.allOnes 64)

/-- The number of earlier variables of the same type. -/
def slot (var : ℕ) : ℕ :=
  (List.range var).countP fun other => globals.numericType other = globals.numericType var

/-- `numeric_indices`: regular variables come after the logic variables. -/
def numericIndex (var : ℕ) : ℕ :=
  match globals.numericType var with
  | .regular => globals.variableDomain.length + globals.slot var
  | _ => globals.slot var

def varsOfType (type : NumType) : List ℕ :=
  (List.range globals.numericVarTypes.length).filter fun var => globals.numericType var = type

end RegistryGlobals

/-- A task whose packer was made for its ranges and whose values are in their domains. -/
structure RegistryTask (N : Type) extends RegistryGlobals N where
  packer : IntPacker
  faithful : packer.Faithful toRegistryGlobals.ranges
  initialStateData_length : initialStateData.length = variableDomain.length
  initialStateData_inRange : ∀ var < variableDomain.length,
    IntPacker.InRange (variableDomain.getD var 0) (initialStateData.getD var 0)
  evaluate_inRange : ∀ values numericVars, ∀ write ∈ evaluate values numericVars,
    write.1 < variableDomain.length ∧ IntPacker.InRange (variableDomain.getD write.1 0) write.2

structure StateRegistry (N : Type) where
  stateDataPool : List (List Bin) := []
  registeredStates : List ℕ := []
  cachedInitialState : Option ℕ := none
  costInformation : ℕ → List N := fun _ => []

namespace RegistryTask

variable {N : Type} (task : RegistryTask N)

/-! ## Numeric variables -/

/-- `get_numeric_vars` of a buffer and a vector of instrumentation variables. -/
def getNumericVars (buffer : List Bin) (instrumentation : List N) : ℕ → N :=
  task.evaluateArithmeticAxioms fun var =>
    match task.numericType var with
    | .instrumentation => instrumentation.getD (task.numericIndex var) task.format.zero
    | .constant => task.initialStateNumeric var
    | .regular => task.format.unpackDouble (task.packer.get buffer (task.numericIndex var))
    | .derived | .unknown => task.format.zero

/-- The vectors of the loop over the assign effects, with what it writes to the buffer. -/
structure NumericPart (N : Type) where
  predecessorVals : ℕ → N
  metricPart : List N
  writes : List Write := []

def applyAssignEffect (previousBuffer : List Bin) (part : NumericPart N) (effect : AssignEffect) :
    NumericPart N :=
  let assVal :=
    if task.numericType effect.assVar = .regular then
      task.format.unpackDouble (task.packer.get previousBuffer (task.numericIndex effect.assVar))
    else part.predecessorVals effect.assVar
  let result := task.format.assignEffect effect.fop (part.predecessorVals effect.affVar) assVal
  let predecessorVals := Function.update part.predecessorVals effect.affVar result
  match task.numericType effect.affVar with
  | .instrumentation =>
    { part with
      metricPart := part.metricPart.set (task.numericIndex effect.affVar) result
      predecessorVals }
  | .regular =>
    { part with
      writes := part.writes ++ [(task.numericIndex effect.affVar, task.format.packDouble result)]
      predecessorVals }
  | _ => part

/-! ## What the calls write -/

/-- The values of a state before its axioms, and the numeric variables. -/
structure Draft (N : Type) where
  base : List Bin
  writes : List Write
  numericVars : ℕ → N
  instrumentation : List N

/-- The effects that fire and the assign effects, on a copy of the predecessor. -/
def successorDraft (predecessor : List Bin) (instrumentation : List N) (op : GlobalOperator) :
    Draft N :=
  let fired := op.effects.filter fun effect => effect.conditions.all fun condition =>
    task.packer.get predecessor condition.var = BitVec.ofInt 64 condition.val
  let part := op.assignEffects.foldl (task.applyAssignEffect predecessor)
    { predecessorVals := task.getNumericVars predecessor instrumentation
      metricPart := instrumentation }
  { base := predecessor
    writes := fired.map (fun effect => (effect.var, BitVec.ofInt 64 effect.val)) ++ part.writes
    numericVars := task.evaluateArithmeticAxioms part.predecessorVals
    instrumentation := part.metricPart }

/-- All values on a buffer of zeros. -/
def freshDraft (values : List ContainerInt) (numericValues : ℕ → N) : Draft N where
  base := task.packer.zeroBuffer
  writes := values.zipIdx.map (fun item => (item.2, item.1)) ++
    (task.varsOfType .regular).map fun var =>
      (task.numericIndex var, task.format.packDouble (numericValues var))
  numericVars := task.evaluateArithmeticAxioms numericValues
  instrumentation := (task.varsOfType .instrumentation).map numericValues

def initialDraft : Draft N := task.freshDraft task.initialStateData task.initialStateNumeric

/-- The buffer after the axioms. -/
def packed (draft : Draft N) : List Bin :=
  let buffer := task.packer.writeAll draft.base draft.writes
  task.packer.writeAll buffer (task.evaluate (task.packer.get buffer) draft.numericVars)

def evaluateMetric (numericState : ℕ → N) : N := numericState task.metricFluent

end RegistryTask

namespace StateRegistry

variable {N : Type}

/-- Inserts the last state of the pool into the hash set, or pops it. -/
def insertIdOrPopState (registry : StateRegistry N) : StateRegistry N × ℕ :=
  let id := registry.stateDataPool.length - 1
  match registry.registeredStates.find? fun other =>
      registry.stateDataPool[other]? = registry.stateDataPool[id]? with
  | none => ({ registry with registeredStates := registry.registeredStates ++ [id] }, id)
  | some other => ({ registry with stateDataPool := registry.stateDataPool.dropLast }, other)

def pushBack (registry : StateRegistry N) (buffer : List Bin) : StateRegistry N :=
  { registry with stateDataPool := registry.stateDataPool ++ [buffer] }

def setCost (registry : StateRegistry N) (id : ℕ) (instrumentation : List N) : StateRegistry N :=
  { registry with costInformation := Function.update registry.costInformation id instrumentation }

variable [LT N] [DecidableLT N]

/-- The two conditionals that write the vector of a state that was there before. -/
def keepOrReplace (minimizes : Bool) (registry : StateRegistry N) (id : ℕ) (oldVal newVal : N)
    (instrumentation : List N) : StateRegistry N :=
  let oldMetric := registry.costInformation id
  let registry :=
    if minimizes && oldVal < newVal then registry.setCost id oldMetric
    else registry.setCost id instrumentation
  if !minimizes && newVal < oldVal then registry.setCost id oldMetric
  else registry.setCost id instrumentation

variable (task : RegistryTask N)

/-- Registers a draft; the metric of `old` stands for that of the state in the comparison. -/
def register (registry : StateRegistry N) (draft : RegistryTask.Draft N)
    (old : StateRegistry N → ℕ → N) : StateRegistry N × ℕ :=
  let inserted := (registry.pushBack (task.packed draft)).insertIdOrPopState
  let registry := inserted.1
  let id := inserted.2
  if id = registry.stateDataPool.length - 1 then
    (registry.setCost id draft.instrumentation, id)
  else
    (registry.keepOrReplace task.metricMinimizes id (old registry id)
      (task.evaluateMetric draft.numericVars) draft.instrumentation, id)

/-- The numeric variables of a registered state. -/
def numericVars (registry : StateRegistry N) (id : ℕ) : ℕ → N :=
  task.getNumericVars (registry.stateDataPool.getD id []) (registry.costInformation id)

def getInitialState (registry : StateRegistry N) : StateRegistry N × ℕ :=
  match registry.cachedInitialState with
  | some id => (registry, id)
  | none =>
    let inserted := (registry.pushBack (task.packed task.initialDraft)).insertIdOrPopState
    ({ inserted.1.setCost inserted.2 task.initialDraft.instrumentation with
        cachedInitialState := some inserted.2 }, inserted.2)

def getSuccessorState (registry : StateRegistry N) (predecessor : ℕ) (op : GlobalOperator) :
    StateRegistry N × ℕ :=
  let buffer := registry.stateDataPool.getD predecessor []
  let draft := task.successorDraft buffer (registry.costInformation predecessor) op
  registry.register task draft fun registry _ =>
    task.evaluateMetric (registry.numericVars task predecessor)

def registerState (registry : StateRegistry N) (values : List ContainerInt) (numericValues : ℕ → N) :
    StateRegistry N × ℕ :=
  registry.register task (task.freshDraft values numericValues) fun registry id =>
    task.evaluateMetric (registry.numericVars task id)

end StateRegistry

end CutPlan.Search
