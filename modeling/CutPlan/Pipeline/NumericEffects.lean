import CutPlan.Preprocess.Operator
import CutPlan.Search.NumericSuccessor

/-! # Numeric effects from the translator to the search

An operator is written by the translator, read, stripped and written again by the preprocessor and
read by the search.  The conditions of its numeric effects get lost on the way, so the successor is
right exactly if all these conditions hold.
-/

namespace CutPlan.Pipeline

open CutPlan.Lib CutPlan.Sas CutPlan.Translate CutPlan.Preprocess CutPlan.Search

variable (levels : Levels) (context : OperatorContext)

/-- The operator as the search sees it. -/
def searchOperator (op : SasOperator) : Option GlobalOperator := do
  let (preprocessed, _) ← Operator.read.run op.output
  let (searched, _) ←
    (GlobalOperator.read context).run
      ((preprocessed.stripUnimportantEffects levels).generateCppInput levels)
  return searched

/-! ## Reading the translator's output -/

section Preprocessor

def preprocessedPrePost (effect : SasPrePost) : PrePost :=
  .make effect.var effect.cond effect.pre effect.post

def preprocessedEffect (effect : SasAssignEffect) : NumericEffect :=
  .unconditional effect.nvar effect.op effect.assVar

def preprocessedOperator (op : SasOperator) : Operator where
  name := op.name
  prevail := op.prevail
  prePost := op.prePost.map preprocessedPrePost
  assignEffects := op.assignEffects.map preprocessedEffect
  cost := op.cost

theorem reads_conditions (conditions : List Condition) :
    Reads Condition.read.counted (writeCounted Condition.write conditions) conditions := by
  have reads := Reads.counted fun condition (_ : condition ∈ conditions) => condition.reads
  rwa [List.map_id'] at reads

theorem reads_prePost (effect : SasPrePost) :
    Reads PrePost.read effect.output (preprocessedPrePost effect) :=
  (reads_conditions effect.cond).bind <| (Reads.nat effect.var).bind <| (Reads.int effect.pre).bind <|
    (Reads.int effect.post).map (PrePost.make effect.var effect.cond effect.pre)

theorem reads_assignEffect (effect : SasAssignEffect) :
    Reads NumericEffect.read effect.output (preprocessedEffect effect) :=
  (reads_conditions effect.cond).bind <| (Reads.nat effect.nvar).bind <| (effect.op.reads).bind <|
    (Reads.nat effect.assVar).map (NumericEffect.unconditional effect.nvar effect.op)

theorem reads_operator (op : SasOperator) :
    Reads Operator.read op.output (preprocessedOperator op) := by
  have text : op.output = [.word "begin_operator"] ++ ([.word op.name] ++
      (writeCounted Condition.write op.prevail ++ (writeCounted SasPrePost.output op.prePost ++
        (writeCounted SasAssignEffect.output op.assignEffects ++
          ([.float op.cost] ++ [.word "end_operator"]))))) := by
    simp [SasOperator.output]
  rw [text]
  unfold Operator.read
  refine (Reads.magic _).bind <| (Reads.word _).bind <| (reads_conditions _).bind <|
    (Reads.counted fun effect _ => reads_prePost effect).bind <|
    (Reads.counted fun effect _ => reads_assignEffect effect).bind <| (Reads.float _).bind ?_
  exact (Reads.magic _).map fun _ => preprocessedOperator op

end Preprocessor

/-! ## Reading the preprocessor's output -/

section Search

def searchCondition (condition : Condition) : Condition :=
  { condition with var := (levels.propositional condition.var).toNat }

/-- The condition's variable is kept, and the condition passes the check of the search. -/
structure ConditionKept (condition : Condition) : Prop where
  kept : 0 ≤ levels.propositional condition.var
  inBounds : GlobalOperator.factInBounds context (searchCondition levels condition) = true

/-- The conditions and variables that the search needs of an operator are kept, apart from those of
effects on pruned variables. -/
structure OperatorKept (op : SasOperator) : Prop where
  prevail : ∀ condition ∈ op.prevail, ConditionKept levels context condition
  prePost : ∀ effect ∈ op.prePost, levels.propositional effect.var ≠ -1 →
    (effect.pre ≠ -1 → ConditionKept levels context { var := effect.var, val := effect.pre }) ∧
    ConditionKept levels context { var := effect.var, val := effect.post } ∧
    ∀ condition ∈ effect.cond, ConditionKept levels context condition
  assignEffects : ∀ effect ∈ op.assignEffects, levels.numeric effect.nvar ≠ -1 →
    0 ≤ levels.numeric effect.nvar ∧ 0 ≤ levels.numeric effect.assVar ∧
    ∀ condition ∈ effect.cond, ConditionKept levels context condition

variable {levels context}

theorem reads_index {level : ℤ} (kept : 0 ≤ level) :
    Reads Reader.nat [.int level] level.toNat := by
  have reads := Reads.nat level.toNat
  rwa [Int.toNat_of_nonneg kept] at reads

theorem reads_checkFact {condition : Condition}
    (inBounds : GlobalOperator.factInBounds context condition = true) :
    Reads (GlobalOperator.checkFact context condition) [] () := by
  rw [GlobalOperator.checkFact, if_pos inBounds]
  exact Reads.pure ()

theorem reads_keptCondition {condition : Condition}
    (conditionKept : ConditionKept levels context condition) :
    Reads (GlobalOperator.readCondition context) (writeCondition levels condition)
      (searchCondition levels condition) := by
  have read : Reads Condition.read (writeCondition levels condition)
      (Condition.mk (levels.propositional condition.var).toNat condition.val) :=
    (reads_index conditionKept.kept).bind
      ((Reads.int condition.val).map (Condition.mk (levels.propositional condition.var).toNat))
  rw [← List.append_nil (writeCondition levels condition)]
  unfold GlobalOperator.readCondition
  refine read.bind ?_
  exact (reads_checkFact conditionKept.inBounds).map fun _ => searchCondition levels condition

theorem reads_keptConditions {conditions : List Condition}
    (conditionsKept : ∀ condition ∈ conditions, ConditionKept levels context condition) :
    Reads (GlobalOperator.readCondition context).counted (writeCounted (writeCondition levels) conditions)
      (conditions.map (searchCondition levels)) :=
  Reads.counted fun condition member => reads_keptCondition (conditionsKept condition member)

theorem reads_keptPrePost (effect : PrePost)
    (preKept : effect.pre ≠ -1 → ConditionKept levels context { var := effect.var, val := effect.pre })
    (postKept : ConditionKept levels context { var := effect.var, val := effect.post })
    (condsKept : ∀ condition ∈ effect.effectConds, ConditionKept levels context condition) :
    Reads (GlobalOperator.readPrePost context) (effect.generateCppInput levels)
      (.make (levels.propositional effect.var).toNat effect.pre effect.post
        (effect.effectConds.map (searchCondition levels))) := by
  have preChecked : Reads
      (GlobalOperator.checkPrecondition context (levels.propositional effect.var).toNat effect.pre)
      [] () := by
    unfold GlobalOperator.checkPrecondition
    split
    next hasPre => exact reads_checkFact (preKept hasPre).inBounds
    next => exact Reads.pure ()
  have text : effect.generateCppInput levels =
      writeCounted (writeCondition levels) effect.effectConds ++
        ([.int (levels.propositional effect.var)] ++ ([.int effect.pre] ++ ([.int effect.post] ++
          ([] ++ [])))) := by
    simp [PrePost.generateCppInput]
  rw [text]
  unfold GlobalOperator.readPrePost
  refine (reads_keptConditions condsKept).bind <| (reads_index postKept.kept).bind <|
    (Reads.int _).bind <| (Reads.int _).bind <| preChecked.bind ?_
  exact (reads_checkFact postKept.inBounds).map fun _ => GlobalOperator.PrePost.make _ _ _ _

theorem reads_keptEffect {effect : NumericEffect} (unconditional : effect.effectConds = [])
    (affKept : 0 ≤ levels.numeric effect.var) (assKept : 0 ≤ levels.numeric effect.foperand) :
    Reads (GlobalOperator.readAssignEffect context) (effect.generateCppInput levels)
      (.make [] (levels.numeric effect.var).toNat effect.fop
        (levels.numeric effect.foperand).toNat) := by
  have noConds : Reads (GlobalOperator.readCondition context).counted
      (writeCounted (writeCondition levels) effect.effectConds) [] := by
    have reads : Reads (GlobalOperator.readCondition context).counted
        (writeCounted (writeCondition levels) []) _ := reads_keptConditions (by simp)
    rwa [unconditional]
  have text : effect.generateCppInput levels =
      writeCounted (writeCondition levels) effect.effectConds ++
        ([.int (levels.numeric effect.var)] ++ ([.word effect.fop.symbol] ++
          [.int (levels.numeric effect.foperand)])) := by
    simp [NumericEffect.generateCppInput]
  rw [text]
  unfold GlobalOperator.readAssignEffect
  refine noConds.bind <| (reads_index affKept).bind <| (effect.fop.reads).bind ?_
  exact (reads_index assKept).map (AssignEffect.make [] _ _)

/-! ## The operator of the search -/

variable (levels) in
def keptPrePosts (op : SasOperator) : List SasPrePost :=
  op.prePost.filter fun effect => levels.propositional effect.var ≠ -1

variable (levels) in
/-- The numeric effects whose variable is kept. -/
def keptEffects (op : SasOperator) : List SasAssignEffect :=
  op.assignEffects.filter fun effect => levels.numeric effect.nvar ≠ -1

variable (levels) in
def searchedPrePost (effect : SasPrePost) : GlobalOperator.PrePost :=
  .make (levels.propositional effect.var).toNat effect.pre effect.post
    (effect.cond.map (searchCondition levels))

variable (levels) in
def searchedEffect (effect : SasAssignEffect) : AssignEffect :=
  .make [] (levels.numeric effect.nvar).toNat effect.op (levels.numeric effect.assVar).toNat

variable (levels context) in
def searchedOperator (op : SasOperator) : GlobalOperator :=
  .make context op.name (op.prevail.map (searchCondition levels))
    ((keptPrePosts levels op).map (searchedPrePost levels))
    ((keptEffects levels op).map (searchedEffect levels)) (printedDouble op.cost)

variable (levels) in
def strippedOperator (op : SasOperator) : Operator :=
  { preprocessedOperator op with
    prePost := (keptPrePosts levels op).map preprocessedPrePost
    assignEffects := (keptEffects levels op).map preprocessedEffect }

@[simp] theorem preprocessedPrePost_var (effect : SasPrePost) :
    (preprocessedPrePost effect).var = effect.var := by
  unfold preprocessedPrePost PrePost.make
  split <;> rfl

theorem generateCppInput_preprocessedPrePost (effect : SasPrePost) :
    (preprocessedPrePost effect).generateCppInput levels =
      writeCounted (writeCondition levels) effect.cond ++
        [.int (levels.propositional effect.var), .int effect.pre, .int effect.post] := by
  unfold preprocessedPrePost PrePost.make PrePost.generateCppInput
  cases effect.cond <;> rfl

theorem stripUnimportantEffects_preprocessed (op : SasOperator) :
    (preprocessedOperator op).stripUnimportantEffects levels = strippedOperator levels op := by
  simp [strippedOperator, Operator.stripUnimportantEffects, preprocessedOperator, keptPrePosts,
    keptEffects, List.filter_map, Function.comp_def]
  rfl

theorem reads_searchedPrePost {op : SasOperator} (kept : OperatorKept levels context op)
    {effect : SasPrePost} (member : effect ∈ keptPrePosts levels op) :
    Reads (GlobalOperator.readPrePost context)
      ((preprocessedPrePost effect).generateCppInput levels) (searchedPrePost levels effect) := by
  obtain ⟨isEffect, isKept⟩ := List.mem_filter.mp member
  obtain ⟨preKept, postKept, condsKept⟩ := kept.prePost effect isEffect (by simpa using isKept)
  rw [generateCppInput_preprocessedPrePost]
  exact reads_keptPrePost ⟨effect.var, effect.pre, effect.post, false, effect.cond⟩
    preKept postKept condsKept

theorem reads_searchedEffect {op : SasOperator} (kept : OperatorKept levels context op)
    {effect : SasAssignEffect} (member : effect ∈ keptEffects levels op) :
    Reads (GlobalOperator.readAssignEffect context)
      ((preprocessedEffect effect).generateCppInput levels) (searchedEffect levels effect) := by
  obtain ⟨isEffect, isKept⟩ := List.mem_filter.mp member
  obtain ⟨affKept, assKept, _⟩ := kept.assignEffects effect isEffect (by simpa using isKept)
  exact reads_keptEffect rfl affKept assKept

theorem reads_strippedOperator {op : SasOperator} (kept : OperatorKept levels context op) :
    Reads (GlobalOperator.read context) ((strippedOperator levels op).generateCppInput levels)
      (searchedOperator levels context op) := by
  have allPrevail : (op.prevail.filter fun condition =>
      levels.propositional condition.var ≠ -1) = op.prevail := by
    refine List.filter_eq_self.mpr fun condition member => ?_
    have := (kept.prevail condition member).kept
    simp only [ne_eq, decide_eq_true_eq]
    omega
  have text : (strippedOperator levels op).generateCppInput levels =
      [.word "begin_operator"] ++ ([.word op.name] ++
        (writeCounted (writeCondition levels) op.prevail ++
          (writeCounted (fun effect => (preprocessedPrePost effect).generateCppInput levels)
              (keptPrePosts levels op) ++
            (writeCounted (fun effect => (preprocessedEffect effect).generateCppInput levels)
                (keptEffects levels op) ++
              ([.float (printedDouble op.cost)] ++ [.word "end_operator"]))))) := by
    simp only [Operator.generateCppInput, strippedOperator, preprocessedOperator, allPrevail]
    simp [writeCounted, List.flatMap_map]
  rw [text]
  unfold GlobalOperator.read
  refine (Reads.magic _).bind <| (Reads.word _).bind <| (reads_keptConditions kept.prevail).bind <|
    (Reads.counted fun effect member => reads_searchedPrePost kept member).bind <|
    (Reads.counted fun effect member => reads_searchedEffect kept member).bind <|
    (Reads.float _).bind ?_
  exact (Reads.magic _).map fun _ => searchedOperator levels context op

theorem searchOperator_eq {op : SasOperator} (kept : OperatorKept levels context op) :
    searchOperator levels context op = some (searchedOperator levels context op) := by
  unfold searchOperator
  rw [(reads_operator op).run_eq]
  simp only [Option.bind_eq_bind, Option.bind_some, stripUnimportantEffects_preprocessed]
  rw [(reads_strippedOperator kept).run_eq]
  rfl

end Search

end CutPlan.Pipeline
