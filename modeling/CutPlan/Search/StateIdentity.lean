import CutPlan.Search.StateRegistry

/-! # The identity of registered states

While a call is running, the pool ends in a state that is not hashed.  After every call the pool and
the hash set agree again, and the position of a state says which values it has.
-/

namespace CutPlan.Search

open CutPlan.Lib CutPlan.Sas

namespace RegistryGlobals

variable {N : Type} (globals : RegistryGlobals N)

theorem numericType_lt {var : ℕ} {type : NumType} (isType : globals.numericType var = type)
    (known : type ≠ .unknown) : var < globals.numericVarTypes.length := by
  by_contra outside
  apply known
  rw [← isType, numericType, List.getD_eq_getElem?_getD,
    List.getElem?_eq_none (not_lt.mp outside)]
  rfl

theorem count_regular : globals.numericVarTypes.count .regular =
    (List.range globals.numericVarTypes.length).countP fun var =>
      globals.numericType var = .regular := by
  have types : globals.numericVarTypes =
      (List.range globals.numericVarTypes.length).map globals.numericType := by
    apply List.ext_getElem
    · simp
    · intro var bound _
      simp [numericType, bound]
  nth_rewrite 1 [types]
  rw [List.count_eq_countP, List.countP_map]
  apply List.countP_congr
  intro var _
  simp

/-- A regular variable has a slot among those that the packer reserves. -/
theorem slot_lt {var : ℕ} (regular : globals.numericType var = .regular) :
    globals.slot var < globals.numericVarTypes.count .regular := by
  have bound := globals.numericType_lt regular (by decide)
  have counted : (List.range (var + 1)).countP (fun other => globals.numericType other = .regular) =
      globals.slot var + 1 := by
    simp [List.range_succ, slot, regular]
  have within : (List.range (var + 1)).countP (fun other => globals.numericType other = .regular) ≤
      globals.numericVarTypes.count .regular := by
    rw [globals.count_regular]
    exact (List.range_sublist.mpr bound).countP_le
  omega

theorem ranges_numericIndex {var : ℕ} (regular : globals.numericType var = .regular) :
    globals.ranges[globals.numericIndex var]? = some (BitVec.allOnes 64) := by
  have inSlots := globals.slot_lt regular
  have index : globals.numericIndex var = globals.variableDomain.length + globals.slot var := by
    simp [numericIndex, regular]
  rw [ranges, index, List.getElem?_append_right (Nat.le_add_right _ _), Nat.add_sub_cancel_left,
    List.getElem?_replicate, if_pos inSlots]

theorem inRanges_domain {write : Write} (bound : write.1 < globals.variableDomain.length)
    (inRange : IntPacker.InRange (globals.variableDomain.getD write.1 0) write.2) :
    write.InRanges globals.ranges := by
  refine ⟨globals.variableDomain.getD write.1 0, ?_, inRange⟩
  rw [ranges, List.getElem?_append_left bound]
  simp [bound]

theorem inRanges_regular {var : ℕ} (regular : globals.numericType var = .regular)
    (value : ContainerInt) : Write.InRanges globals.ranges (globals.numericIndex var, value) :=
  ⟨BitVec.allOnes 64, globals.ranges_numericIndex regular, .inr rfl⟩

end RegistryGlobals

namespace IntPacker

variable {packer : IntPacker} {ranges : List ContainerInt} {buffer : List Bin}

/-- Packed writes have the effect of writes on values, also for variables that do not exist. -/
theorem get_writeAll_eq (faithful : packer.Faithful ranges) {writes : List Write}
    (inRanges : ∀ write ∈ writes, write.InRanges ranges) (clean : packer.Clean buffer) :
    packer.get (packer.writeAll buffer writes) = updateAll (packer.get buffer) writes := by
  funext var
  by_cases bound : var < ranges.length
  · exact get_writeAll faithful inRanges clean var bound
  · have unknown : packer.varInfos.getD var none = none := by
      rw [List.getD_eq_getElem?_getD, List.getElem?_eq_none (by rw [faithful.length_eq]; omega)]
      rfl
    have nothing : ∀ anyBuffer, packer.get anyBuffer var = 0 := by
      intro anyBuffer
      rw [get, unknown]
    rw [nothing, updateAll_of_not_written, nothing]
    intro write member same
    obtain ⟨range, isRange, _⟩ := inRanges write member
    exact bound (same ▸ (List.getElem?_eq_some_iff.mp isRange).1)

end IntPacker

namespace RegistryTask

variable {N : Type} {task : RegistryTask N}

/-- The base is a clean buffer and every write is in range. -/
structure Draft.Valid (task : RegistryTask N) (draft : Draft N) : Prop where
  clean : task.packer.Clean draft.base
  inRanges : ∀ write ∈ draft.writes, write.InRanges task.ranges

/-- The values of a draft after its axioms. -/
def Draft.values (task : RegistryTask N) (draft : Draft N) : ℕ → ContainerInt :=
  let values := updateAll (task.packer.get draft.base) draft.writes
  updateAll values (task.evaluate values draft.numericVars)

theorem Draft.Valid.evaluate_inRanges (values : ℕ → ContainerInt) (numericVars : ℕ → N) :
    ∀ write ∈ task.evaluate values numericVars, write.InRanges task.ranges := by
  intro write member
  obtain ⟨bound, inRange⟩ := task.evaluate_inRange values numericVars write member
  exact task.inRanges_domain bound inRange

theorem Draft.Valid.packed_clean {draft : Draft N} (valid : draft.Valid task) :
    task.packer.Clean (task.packed draft) :=
  (valid.clean.writeAll task.faithful valid.inRanges).writeAll task.faithful
    (evaluate_inRanges _ _)

theorem Draft.Valid.get_packed {draft : Draft N} (valid : draft.Valid task) :
    task.packer.get (task.packed draft) = draft.values task := by
  have first := IntPacker.get_writeAll_eq task.faithful valid.inRanges valid.clean
  have second := IntPacker.get_writeAll_eq task.faithful
    (@evaluate_inRanges _ task (task.packer.get (task.packer.writeAll draft.base draft.writes))
      draft.numericVars) (valid.clean.writeAll task.faithful valid.inRanges)
  rw [packed, second, first]
  rfl

/-- An operator whose effects were checked when it was read. -/
def ValidOperator (task : RegistryTask N) (op : GlobalOperator) : Prop :=
  ∀ effect ∈ op.effects, effect.var < task.variableDomain.length ∧
    IntPacker.InRange (task.variableDomain.getD effect.var 0) (BitVec.ofInt 64 effect.val)

def ValidValues (task : RegistryTask N) (values : List ContainerInt) : Prop :=
  values.length = task.variableDomain.length ∧
    ∀ var < task.variableDomain.length,
      IntPacker.InRange (task.variableDomain.getD var 0) (values.getD var 0)

theorem applyAssignEffect_writes (previousBuffer : List Bin) {part : NumericPart N}
    (inRanges : ∀ write ∈ part.writes, write.InRanges task.ranges) (effect : AssignEffect) :
    ∀ write ∈ (task.applyAssignEffect previousBuffer part effect).writes,
      write.InRanges task.ranges := by
  unfold applyAssignEffect
  cases type : task.numericType effect.affVar with
  | regular =>
    intro write member
    cases List.mem_append.mp member with
    | inl before => exact inRanges write before
    | inr new =>
      rw [List.mem_singleton] at new
      rw [new]
      exact task.inRanges_regular type _
  | instrumentation | constant | derived | unknown => exact inRanges

theorem foldl_applyAssignEffect_writes (previousBuffer : List Bin) (effects : List AssignEffect) :
    ∀ part : NumericPart N, (∀ write ∈ part.writes, write.InRanges task.ranges) →
      ∀ write ∈ (effects.foldl (task.applyAssignEffect previousBuffer) part).writes,
        write.InRanges task.ranges := by
  induction effects with
  | nil => exact fun _ inRanges => inRanges
  | cons effect effects inductionHypothesis =>
    intro part inRanges
    exact inductionHypothesis _ (applyAssignEffect_writes previousBuffer inRanges effect)

theorem successorDraft_valid {predecessor : List Bin} (clean : task.packer.Clean predecessor)
    (instrumentation : List N) {op : GlobalOperator} (validOperator : task.ValidOperator op) :
    (task.successorDraft predecessor instrumentation op).Valid task where
  clean := clean
  inRanges := by
    intro write member
    cases List.mem_append.mp member with
    | inl fired =>
      obtain ⟨effect, isEffect, rfl⟩ := List.mem_map.mp fired
      obtain ⟨bound, inRange⟩ := validOperator effect (List.mem_of_mem_filter isEffect)
      exact task.inRanges_domain bound inRange
    | inr numeric =>
      exact foldl_applyAssignEffect_writes predecessor op.assignEffects _ (by simp) write numeric

theorem freshDraft_valid {values : List ContainerInt} (validValues : task.ValidValues values)
    (numericValues : ℕ → N) : (task.freshDraft values numericValues).Valid task where
  clean := IntPacker.clean_zeroBuffer
  inRanges := by
    intro write member
    cases List.mem_append.mp member with
    | inl logic =>
      obtain ⟨item, isItem, rfl⟩ := List.mem_map.mp logic
      obtain ⟨bound, isValue⟩ := List.mem_zipIdx' isItem
      have inRange := validValues.2 item.2 (validValues.1 ▸ bound)
      apply task.inRanges_domain (validValues.1 ▸ bound)
      simpa [bound, ← isValue] using inRange
    | inr numeric =>
      obtain ⟨var, isVar, rfl⟩ := List.mem_map.mp numeric
      have regular : task.numericType var = .regular := by
        simpa using (List.mem_filter.mp isVar).2
      exact task.inRanges_regular regular _

theorem initialDraft_valid : task.initialDraft.Valid task :=
  freshDraft_valid ⟨task.initialStateData_length, task.initialStateData_inRange⟩
    task.initialStateNumeric

end RegistryTask

/-! ## The pool and the hash set -/

namespace StateRegistry

variable {N : Type} {task : RegistryTask N}

/-- The hash set holds the positions of the pool, whose buffers are clean and different. -/
structure Consistent (task : RegistryTask N) (registry : StateRegistry N) : Prop where
  registered : registry.registeredStates = List.range registry.stateDataPool.length
  nodup : registry.stateDataPool.Nodup
  clean : ∀ buffer ∈ registry.stateDataPool, task.packer.Clean buffer
  cached : ∀ id, registry.cachedInitialState = some id →
    registry.stateDataPool[id]? = some (task.packed task.initialDraft)

theorem Consistent.start : Consistent task ({} : StateRegistry N) where
  registered := rfl
  nodup := .nil
  clean := by simp
  cached := by simp

/-- Appending and then inserting or popping interns the buffer. -/
theorem Consistent.insertIdOrPopState {registry : StateRegistry N}
    (consistent : registry.Consistent task) (buffer : List Bin) :
    (registry.pushBack buffer).insertIdOrPopState =
      ({ registry with
          stateDataPool := (intern registry.stateDataPool buffer).1
          registeredStates := List.range (intern registry.stateDataPool buffer).1.length },
        (intern registry.stateDataPool buffer).2) := by
  have registered := consistent.registered
  have last : (registry.stateDataPool ++ [buffer]).length - 1 = registry.stateDataPool.length := by
    simp
  have sought : (registry.stateDataPool ++ [buffer])[registry.stateDataPool.length]? = some buffer := by
    simp
  -- a position before the last one has its own buffer
  have earlier : ∀ id < registry.stateDataPool.length,
      (registry.stateDataPool ++ [buffer])[id]? = registry.stateDataPool[id]? :=
    fun id bound => List.getElem?_append_left bound
  by_cases present : buffer ∈ registry.stateDataPool
  · obtain ⟨id, found⟩ := List.mem_iff_getElem?.mp present
    have bound := (List.getElem?_eq_some_iff.mp found).1
    have search : (List.range registry.stateDataPool.length).find? (fun other =>
        decide ((registry.stateDataPool ++ [buffer])[other]? = some buffer)) = some id := by
      rw [List.find?_range_eq_some]
      refine ⟨by simp [earlier id bound, found], List.mem_range.mpr bound, ?_⟩
      intro other before
      have otherBound := before.trans bound
      have different : registry.stateDataPool[other]? ≠ some buffer := by
        intro same
        have equal := (index_eq_iff consistent.nodup same found).mpr rfl
        omega
      simp [earlier other otherBound, different]
    rw [intern_of_getElem? consistent.nodup found]
    simp only [StateRegistry.insertIdOrPopState, pushBack, last, sought, registered, search,
      List.dropLast_concat]
  · have search : (List.range registry.stateDataPool.length).find? (fun other =>
        decide ((registry.stateDataPool ++ [buffer])[other]? = some buffer)) = none := by
      rw [List.find?_range_eq_none]
      intro other bound
      have different : registry.stateDataPool[other]? ≠ some buffer :=
        fun same => present (List.mem_of_getElem? same)
      simp [earlier other bound, different]
    rw [intern_of_not_mem present]
    simp only [StateRegistry.insertIdOrPopState, pushBack, last, sought, registered, search]
    simp [List.range_succ]

/-- What interning a clean buffer leaves. -/
theorem Consistent.intern {registry after : StateRegistry N} (consistent : registry.Consistent task)
    {buffer : List Bin} (clean : task.packer.Clean buffer)
    (pool : after.stateDataPool = (CutPlan.Lib.intern registry.stateDataPool buffer).1)
    (registered : after.registeredStates = List.range after.stateDataPool.length)
    (cached : ∀ id, after.cachedInitialState = some id →
      after.stateDataPool[id]? = some (task.packed task.initialDraft)) :
    after.Consistent task where
  registered := registered
  nodup := pool ▸ nodup_intern consistent.nodup buffer
  clean := by
    intro other member
    rw [pool, CutPlan.Lib.intern] at member
    split at member
    · exact consistent.clean other member
    · cases List.mem_append.mp member with
      | inl old => exact consistent.clean other old
      | inr new => exact List.mem_singleton.mp new ▸ clean
  cached := cached

/-! ## Calls -/

section Calls

variable [LT N] [DecidableLT N]

/-- Writing the vectors of instrumentation variables does not touch the states. -/
structure SameStates (first second : StateRegistry N) : Prop where
  pool : first.stateDataPool = second.stateDataPool
  registered : first.registeredStates = second.registeredStates
  cached : first.cachedInitialState = second.cachedInitialState

theorem sameStates_keepOrReplace (minimizes : Bool) (registry : StateRegistry N) (id : ℕ)
    (oldVal newVal : N) (instrumentation : List N) :
    SameStates (registry.keepOrReplace minimizes id oldVal newVal instrumentation) registry := by
  unfold keepOrReplace
  dsimp only
  split <;> split <;> exact ⟨rfl, rfl, rfl⟩

theorem Consistent.register {registry : StateRegistry N} (consistent : registry.Consistent task)
    {draft : RegistryTask.Draft N} (valid : draft.Valid task) (old : StateRegistry N → ℕ → N) :
    (registry.register task draft old).1.Consistent task ∧
      (registry.register task draft old).1.stateDataPool =
        (CutPlan.Lib.intern registry.stateDataPool (task.packed draft)).1 ∧
      (registry.register task draft old).2 =
        (CutPlan.Lib.intern registry.stateDataPool (task.packed draft)).2 := by
  have inserted := consistent.insertIdOrPopState (task.packed draft)
  have states : SameStates (registry.register task draft old).1
      (registry.pushBack (task.packed draft)).insertIdOrPopState.1 ∧
      (registry.register task draft old).2 =
        (registry.pushBack (task.packed draft)).insertIdOrPopState.2 := by
    unfold StateRegistry.register
    dsimp only
    split
    · exact ⟨⟨rfl, rfl, rfl⟩, rfl⟩
    · exact ⟨sameStates_keepOrReplace _ _ _ _ _ _, rfl⟩
  rw [inserted] at states
  obtain ⟨⟨pool, registered, cached⟩, id⟩ := states
  refine ⟨consistent.intern valid.packed_clean pool (by rw [registered, pool]) ?_, pool, id⟩
  intro cachedId isCached
  rw [cached] at isCached
  rw [pool]
  exact getElem?_intern_of_some (consistent.cached cachedId isCached) _

theorem Consistent.getInitialState {registry : StateRegistry N}
    (consistent : registry.Consistent task) (uncached : registry.cachedInitialState = none) :
    (registry.getInitialState task).1.Consistent task ∧
      (registry.getInitialState task).1.stateDataPool =
        (CutPlan.Lib.intern registry.stateDataPool (task.packed task.initialDraft)).1 ∧
      (registry.getInitialState task).2 =
        (CutPlan.Lib.intern registry.stateDataPool (task.packed task.initialDraft)).2 := by
  have inserted := consistent.insertIdOrPopState (task.packed task.initialDraft)
  simp only [StateRegistry.getInitialState, uncached, inserted]
  refine ⟨consistent.intern RegistryTask.initialDraft_valid.packed_clean rfl rfl ?_, rfl, trivial⟩
  intro id isCached
  cases isCached
  exact getElem?_intern _ _

end Calls

/-- A call of the registry. -/
inductive Call (N : Type) where
  | getInitialState
  | getSuccessorState (predecessor : ℕ) (op : GlobalOperator)
  | registerState (values : List ContainerInt) (numericValues : ℕ → N)

namespace Call

/-- States that are passed in are registered, and values are in their domains. -/
def Valid (task : RegistryTask N) (registry : StateRegistry N) : Call N → Prop
  | .getInitialState => True
  | .getSuccessorState predecessor op =>
    predecessor < registry.stateDataPool.length ∧ task.ValidOperator op
  | .registerState values _ => task.ValidValues values

/-- The values of the state that a call asks for. -/
def values (task : RegistryTask N) (registry : StateRegistry N) : Call N → ℕ → ContainerInt
  | .getInitialState => task.initialDraft.values task
  | .getSuccessorState predecessor op =>
    (task.successorDraft (registry.stateDataPool.getD predecessor [])
      (registry.costInformation predecessor) op).values task
  | .registerState values numericValues => (task.freshDraft values numericValues).values task

variable [LT N] [DecidableLT N]

def apply (task : RegistryTask N) (registry : StateRegistry N) : Call N → StateRegistry N × ℕ
  | .getInitialState => registry.getInitialState task
  | .getSuccessorState predecessor op => registry.getSuccessorState task predecessor op
  | .registerState values numericValues => registry.registerState task values numericValues

/-- A call interns a buffer with the values it asks for. -/
theorem apply_spec {registry : StateRegistry N} (consistent : registry.Consistent task)
    {call : Call N} (valid : call.Valid task registry) :
    (call.apply task registry).1.Consistent task ∧
      registry.stateDataPool <+: (call.apply task registry).1.stateDataPool ∧
      ∃ buffer, (call.apply task registry).1.stateDataPool[(call.apply task registry).2]? =
          some buffer ∧ task.packer.get buffer = call.values task registry := by
  -- the three functions share what follows from interning a draft
  have interned : ∀ {after : StateRegistry N × ℕ} {draft : RegistryTask.Draft N},
      draft.Valid task → after.1.Consistent task →
      after.1.stateDataPool = (CutPlan.Lib.intern registry.stateDataPool (task.packed draft)).1 →
      after.2 = (CutPlan.Lib.intern registry.stateDataPool (task.packed draft)).2 →
      after.1.Consistent task ∧ registry.stateDataPool <+: after.1.stateDataPool ∧
        ∃ buffer, after.1.stateDataPool[after.2]? = some buffer ∧
          task.packer.get buffer = draft.values task := by
    intro after draft draftValid afterConsistent pool id
    refine ⟨afterConsistent, pool ▸ prefix_intern _ _, task.packed draft, ?_, draftValid.get_packed⟩
    rw [pool, id]
    exact getElem?_intern _ _
  cases call with
  | getInitialState =>
    cases cached : registry.cachedInitialState with
    | some id =>
      have answer : Call.apply task registry .getInitialState = (registry, id) := by
        simp only [apply, StateRegistry.getInitialState, cached]
      rw [answer]
      exact ⟨consistent, List.prefix_refl _, _, consistent.cached id cached,
        RegistryTask.initialDraft_valid.get_packed⟩
    | none =>
      obtain ⟨afterConsistent, pool, id⟩ := consistent.getInitialState cached
      exact interned RegistryTask.initialDraft_valid afterConsistent pool id
  | getSuccessorState predecessor op =>
    obtain ⟨bound, validOperator⟩ := valid
    have clean : task.packer.Clean (registry.stateDataPool.getD predecessor []) := by
      have member := consistent.clean registry.stateDataPool[predecessor] (List.getElem_mem bound)
      simpa [bound] using member
    have draftValid := RegistryTask.successorDraft_valid clean
      (registry.costInformation predecessor) validOperator
    obtain ⟨afterConsistent, pool, id⟩ := consistent.register draftValid fun registry _ =>
      task.evaluateMetric (registry.numericVars task predecessor)
    exact interned draftValid afterConsistent pool id
  | registerState values numericValues =>
    have draftValid := RegistryTask.freshDraft_valid valid numericValues
    obtain ⟨afterConsistent, pool, id⟩ := consistent.register draftValid fun registry id =>
      task.evaluateMetric (registry.numericVars task id)
    exact interned draftValid afterConsistent pool id

end Call

/-! ## Runs -/

variable [LT N] [DecidableLT N]

/-- The registry and, for every call so far, its answer and the values it asked for. -/
inductive Run (task : RegistryTask N) : StateRegistry N → List (ℕ × (ℕ → ContainerInt)) → Prop
  | start : Run task {} []
  | call {registry : StateRegistry N} {log : List (ℕ × (ℕ → ContainerInt))} (call : Call N) :
      Run task registry log → call.Valid task registry →
      Run task (call.apply task registry).1
        (log ++ [((call.apply task registry).2, call.values task registry)])

/-- A logged answer finds a buffer with the logged values. -/
theorem Run.consistent {registry : StateRegistry N} {log : List (ℕ × (ℕ → ContainerInt))}
    (run : Run task registry log) : registry.Consistent task ∧
      ∀ entry ∈ log, ∃ buffer, registry.stateDataPool[entry.1]? = some buffer ∧
        task.packer.get buffer = entry.2 := by
  induction run with
  | start => exact ⟨.start, by simp⟩
  | call call run valid inductionHypothesis =>
    obtain ⟨consistent, lookups⟩ := inductionHypothesis
    obtain ⟨after, ⟨rest, extended⟩, buffer, found, values⟩ := call.apply_spec consistent valid
    refine ⟨after, fun entry member => ?_⟩
    cases List.mem_append.mp member with
    | inl earlier =>
      -- positions of earlier answers keep their buffers
      obtain ⟨buffer, found, values⟩ := lookups entry earlier
      have bound := (List.getElem?_eq_some_iff.mp found).1
      exact ⟨buffer, by rw [← extended, List.getElem?_append_left bound, found], values⟩
    | inr new =>
      rw [List.mem_singleton.mp new]
      exact ⟨buffer, found, values⟩

/-- After any sequence of calls the hash set holds exactly the positions of the pool, whose buffers
are different, and answers are equal exactly if the values of the states are. -/
theorem Run.identity {registry : StateRegistry N} {log : List (ℕ × (ℕ → ContainerInt))}
    (run : Run task registry log) :
    registry.registeredStates = List.range registry.stateDataPool.length ∧
      registry.stateDataPool.Nodup ∧
      (∀ entry ∈ log, ∃ buffer, registry.stateDataPool[entry.1]? = some buffer ∧
        task.packer.get buffer = entry.2) ∧
      ∀ first ∈ log, ∀ second ∈ log, first.1 = second.1 ↔
        ∀ var < task.ranges.length, first.2 var = second.2 var := by
  obtain ⟨consistent, lookups⟩ := run.consistent
  refine ⟨consistent.registered, consistent.nodup, lookups, ?_⟩
  intro first firstMember second secondMember
  obtain ⟨firstBuffer, firstFound, firstValues⟩ := lookups first firstMember
  obtain ⟨secondBuffer, secondFound, secondValues⟩ := lookups second secondMember
  rw [index_eq_iff consistent.nodup firstFound secondFound, ← firstValues, ← secondValues]
  constructor
  · rintro rfl
    exact fun _ _ => rfl
  · exact (consistent.clean _ (List.mem_of_getElem? firstFound)).ext task.faithful
      (consistent.clean _ (List.mem_of_getElem? secondFound))

/-! ### A road with tolls -/

/-- A vehicle at one of three places, a total cost, two tolls and some fuel. -/
def tollGlobals (minimizes : Bool) : RegistryGlobals (BitVec 64) where
  format :=
    { zero := 0
      packDouble := id
      unpackDouble := id
      assignEffect := fun fop value change =>
        match fop with
        | .increase => value + change
        | _ => change
      unpack_pack := fun _ => rfl }
  variableDomain := [3]
  numericVarTypes := [.instrumentation, .constant, .constant, .regular]
  initialStateData := [0]
  initialStateNumeric := fun var => [0, 1, 5, 7].getD var 0
  evaluateArithmeticAxioms := id
  evaluate := fun _ _ => []
  metricFluent := 0
  metricMinimizes := minimizes

/-- The fuel fills a bin of its own. -/
def tollPacker : IntPacker where
  varInfos := [some (.ofRange 3 1 0), some (.ofRange (BitVec.allOnes 64) 0 0)]
  numBins := 2

theorem tollPacker_faithful (minimizes : Bool) :
    tollPacker.Faithful (tollGlobals minimizes).ranges := by
  have packable : ∀ range ∈ (tollGlobals minimizes).ranges, IntPacker.Packable range := by
    intro range member
    have cases : range = 3 ∨ range = BitVec.allOnes 64 := by
      simpa [RegistryGlobals.ranges, tollGlobals] using member
    obtain rfl | rfl := cases
    · exact .inl (by decide)
    · exact .inr rfl
  obtain ⟨packer, returns, faithful⟩ := IntPacker.exists_faithful packable
  have computed : IntPacker.ofRanges 2 (tollGlobals minimizes).ranges = some tollPacker := by
    cases minimizes <;> decide +kernel
  have same := (returns 2 (by simp [RegistryGlobals.ranges, tollGlobals])).symm.trans computed
  exact Option.some.inj same ▸ faithful

def tollTask (minimizes : Bool) : RegistryTask (BitVec 64) where
  toRegistryGlobals := tollGlobals minimizes
  packer := tollPacker
  faithful := tollPacker_faithful minimizes
  initialStateData_length := rfl
  initialStateData_inRange := by
    intro var bound
    have first : var = 0 := Nat.lt_one_iff.mp bound
    subst first
    exact .inl (by cases minimizes <;> decide)
  evaluate_inRange := by simp [tollGlobals]

/-- Drives to a place and pays the toll that a variable holds. -/
def drive (place : ℤ) (toll : ℕ) : GlobalOperator where
  preconditions := []
  effects := [{ var := 0, val := place, conditions := [] }]
  assignEffects := [AssignEffect.make [] 0 .increase toll]
  name := "drive"
  cost := 0

theorem tollTask_validOperator (minimizes : Bool) {place : ℤ} (isPlace : place = 1 ∨ place = 2)
    (toll : ℕ) : (tollTask minimizes).ValidOperator (drive place toll) := by
  intro effect member
  rw [List.mem_singleton.mp member]
  obtain rfl | rfl := isPlace <;> exact ⟨Nat.one_pos, .inl (by cases minimizes <;> decide)⟩

/-- The tolls are not part of the state, so two ways to a place end in one state. -/
theorem Run.identity_toll : ∃ registry log, Run (tollTask true) registry log ∧
    log.map Prod.fst = [0, 1, 1] ∧ registry.stateDataPool = [[7, 0], [7, 1]] ∧
    registry.registeredStates = List.range registry.stateDataPool.length ∧
    registry.stateDataPool.Nodup ∧
    (∀ entry ∈ log, ∃ buffer, registry.stateDataPool[entry.1]? = some buffer ∧
      (tollTask true).packer.get buffer = entry.2) ∧
    ∀ first ∈ log, ∀ second ∈ log, first.1 = second.1 ↔
      ∀ var < (tollTask true).ranges.length, first.2 var = second.2 var := by
  have cheap := tollTask_validOperator true (.inl rfl) 1
  have expensive := tollTask_validOperator true (.inl rfl) 2
  have start : Run (tollTask true) {} [] := .start
  have first := start.call .getInitialState trivial
  have second := first.call (.getSuccessorState 0 (drive 1 1)) ⟨by decide +kernel, cheap⟩
  have third := second.call (.getSuccessorState 0 (drive 1 2)) ⟨by decide +kernel, expensive⟩
  exact ⟨_, _, third, by decide +kernel, by decide +kernel, Run.identity third⟩

end StateRegistry

end CutPlan.Search
