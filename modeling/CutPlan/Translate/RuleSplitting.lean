import CutPlan.Lib.Components
import CutPlan.Translate.JoinSplitting

/-! # Splitting the rules of the grounding program

The conditions of a rule fall into connected components, which share no variables.  Every component is projected to
the variables of the effect and split into joins; a last rule combines the projections and the conditions without
variables.
-/

set_option linter.unusedSectionVars false

namespace CutPlan.Translate

open CutPlan.Lib

variable {Pred Var Obj : Type} [DecidableEq Pred] [DecidableEq Var] [DecidableEq Obj]

/-! ## The graph of the conditions -/

/-- A condition stands as often in the list as the variable occurs in it. -/
def conditionsOfVar (conditions : List (SymbolicAtom Pred Var Obj)) (var : Var) :
    List (SymbolicAtom Pred Var Obj) :=
  conditions.flatMap fun cond => ((variablesOf cond).filter (· = var)).map fun _ => cond

/-- The first condition with a variable is connected with the others. -/
def connectedPairs (conditions : List (SymbolicAtom Pred Var Obj)) :
    List (SymbolicAtom Pred Var Obj × SymbolicAtom Pred Var Obj) :=
  (conditions.flatMap variablesOf).dedup.flatMap fun var =>
    match conditionsOfVar conditions var with
    | [] => []
    | first :: rest => rest.map fun cond => (first, cond)

def neighboursOf (conditions : List (SymbolicAtom Pred Var Obj))
    (node : SymbolicAtom Pred Var Obj) : List (SymbolicAtom Pred Var Obj) :=
  (connectedPairs conditions).flatMap fun (first, second) =>
    (if first = node then [second] else []) ++ if second = node then [first] else []

/-- Lists are compared at the first place where they differ. -/
def listLess {α : Type} [DecidableEq α] (less : α → α → Bool) : List α → List α → Bool
  | [], [] => false
  | [], _ :: _ => true
  | _ :: _, [] => false
  | first :: rest, first' :: rest' => if first = first' then listLess less rest rest' else less first first'

def sortedBy {α : Type} (less : α → α → Bool) (list : List α) : List α :=
  list.mergeSort fun first second => !less second first

/-- Conditions are sorted by their hash values. -/
def getConnectedConditions (less : SymbolicAtom Pred Var Obj → SymbolicAtom Pred Var Obj → Bool)
    (conditions : List (SymbolicAtom Pred Var Obj)) : List (List (SymbolicAtom Pred Var Obj)) :=
  sortedBy (listLess less) ((connectedComponents (neighboursOf conditions) conditions).map (sortedBy less))

/-! ## Splitting a rule -/

section Splitting

variable (newName : ℕ → Pred) (le : Term Var Obj → Term Var Obj → Bool)
  (less : SymbolicAtom Pred Var Obj → SymbolicAtom Pred Var Obj → Bool)

instance : LawfulBEq (Term Var Obj) := inferInstance

def projectRule (rule : DatalogRule Pred Var Obj) (conditions : List (SymbolicAtom Pred Var Obj))
    (count : ℕ) : DatalogRule Pred Var Obj :=
  let condVars := (conditions.flatMap variablesOf).map (Term.var : Var → Term Var Obj)
  ⟨conditions, ⟨newName count, (rule.effect.args.dedup.filter (· ∈ condVars)).mergeSort le⟩⟩

def projectRules (rule : DatalogRule Pred Var Obj) :
    List (List (SymbolicAtom Pred Var Obj)) → ℕ → List (DatalogRule Pred Var Obj)
  | [], _ => []
  | conditions :: components, count => projectRule newName le rule conditions count :: projectRules rule components (count + 1)

def splitIntoBinaryRules (rule : DatalogRule Pred Var Obj) (count : ℕ) :
    List (TypedRule Pred Var Obj) × ℕ :=
  if rule.conditions.length ≤ 1 then ([⟨.project, rule⟩], count) else greedyJoin newName le rule count

def splitAllIntoBinaryRules : List (DatalogRule Pred Var Obj) → ℕ →
    List (TypedRule Pred Var Obj) × ℕ
  | [], count => ([], count)
  | rule :: rules, count =>
    let (result, count) := splitIntoBinaryRules newName le rule count
    let (results, count) := splitAllIntoBinaryRules rules count
    (result ++ results, count)

def hasVariable (cond : SymbolicAtom Pred Var Obj) : Bool := !(variablesOf cond).isEmpty

def combiningRule (conditions : List (SymbolicAtom Pred Var Obj))
    (effect : SymbolicAtom Pred Var Obj) : TypedRule Pred Var Obj :=
  ⟨if 2 ≤ conditions.length then .product else .project, ⟨conditions, effect⟩⟩

def splitRule (rule : DatalogRule Pred Var Obj) (count : ℕ) :
    List (TypedRule Pred Var Obj) × ℕ :=
  let importantConditions := rule.conditions.filter hasVariable
  let trivialConditions := rule.conditions.filter fun cond => !hasVariable cond
  let components := getConnectedConditions less importantConditions
  if components.length = 1 ∧ trivialConditions = [] then splitIntoBinaryRules newName le rule count
  else
    let projectedRules := projectRules newName le rule components count
    let (result, count) := splitAllIntoBinaryRules newName le projectedRules (count + components.length)
    (result ++ [combiningRule (projectedRules.map DatalogRule.effect ++ trivialConditions) rule.effect], count)

def splitRules : List (DatalogRule Pred Var Obj) → ℕ → List (TypedRule Pred Var Obj) × ℕ
  | [], count => ([], count)
  | rule :: rules, count =>
    let (result, count) := splitRule newName le less rule count
    let (results, count) := splitRules rules count
    (result ++ results, count)

end Splitting

/-! ## Components share no variables -/

section Graph

variable {conditions component : List (SymbolicAtom Pred Var Obj)}
  {node other : SymbolicAtom Pred Var Obj} {name : Var}

theorem mem_conditionsOfVar {cond : SymbolicAtom Pred Var Obj} :
    cond ∈ conditionsOfVar conditions name ↔ cond ∈ conditions ∧ name ∈ variablesOf cond := by
  simp only [conditionsOfVar, List.mem_flatMap, List.mem_map, List.mem_filter, decide_eq_true_eq]
  constructor
  · rintro ⟨cond, member, _, ⟨occurs, rfl⟩, rfl⟩
    exact ⟨member, occurs⟩
  · rintro ⟨member, occurs⟩
    exact ⟨cond, member, name, ⟨occurs, rfl⟩, rfl⟩

theorem mem_connectedPairs : (node, other) ∈ connectedPairs conditions ↔
    ∃ name rest, conditionsOfVar conditions name = node :: rest ∧ other ∈ rest := by
  simp only [connectedPairs, List.mem_flatMap, List.mem_dedup]
  constructor
  · rintro ⟨name, _, isPair⟩
    cases isConditions : conditionsOfVar conditions name with
    | nil => simp [isConditions] at isPair
    | cons first rest =>
      simp only [isConditions, List.mem_map, Prod.mk.injEq, exists_eq_right_right] at isPair
      obtain ⟨isRest, rfl⟩ := isPair
      exact ⟨name, rest, isConditions, isRest⟩
  · rintro ⟨name, rest, isConditions, isRest⟩
    have isNode : node ∈ conditionsOfVar conditions name := by simp [isConditions]
    refine ⟨name, ⟨node, mem_conditionsOfVar.mp isNode⟩, ?_⟩
    simp [isConditions, isRest]

theorem mem_neighboursOf : other ∈ neighboursOf conditions node ↔
    (node, other) ∈ connectedPairs conditions ∨ (other, node) ∈ connectedPairs conditions := by
  simp only [neighboursOf, List.mem_flatMap, List.mem_append, List.mem_ite_nil_right, List.mem_singleton, Prod.exists]
  constructor
  · rintro ⟨first, second, isPair, ⟨rfl, rfl⟩ | ⟨rfl, rfl⟩⟩
    · exact Or.inl isPair
    · exact Or.inr isPair
  · rintro (isPair | isPair)
    · exact ⟨node, other, isPair, Or.inl ⟨rfl, rfl⟩⟩
    · exact ⟨other, node, isPair, Or.inr ⟨rfl, rfl⟩⟩

theorem neighboursOf_symmetric (isNeighbour : other ∈ neighboursOf conditions node) :
    node ∈ neighboursOf conditions other :=
  mem_neighboursOf.mpr (mem_neighboursOf.mp isNeighbour).symm

theorem exists_shared_of_neighbour (isNeighbour : other ∈ neighboursOf conditions node) :
    ∃ name, name ∈ variablesOf node ∧ name ∈ variablesOf other := by
  have ofPair : ∀ {first second}, (first, second) ∈ connectedPairs conditions →
      ∃ name, name ∈ variablesOf first ∧ name ∈ variablesOf second := by
    intro first second isPair
    obtain ⟨name, rest, isConditions, isRest⟩ := mem_connectedPairs.mp isPair
    have inFirst : first ∈ conditionsOfVar conditions name := by simp [isConditions]
    have inSecond : second ∈ conditionsOfVar conditions name := by simp [isConditions, isRest]
    exact ⟨name, (mem_conditionsOfVar.mp inFirst).2, (mem_conditionsOfVar.mp inSecond).2⟩
  cases mem_neighboursOf.mp isNeighbour with
  | inl isPair => exact ofPair isPair
  | inr isPair =>
    obtain ⟨name, inOther, inNode⟩ := ofPair isPair
    exact ⟨name, inNode, inOther⟩

/-- The first condition with a variable is in the components of all conditions with it. -/
theorem first_mem_component (isComponent : component ∈ connectedComponents (neighboursOf conditions) conditions)
    (isNode : node ∈ component) (occurs : name ∈ variablesOf node) {first : SymbolicAtom Pred Var Obj}
    {rest : List (SymbolicAtom Pred Var Obj)} (isConditions : conditionsOfVar conditions name = first :: rest) :
    first ∈ component := by
  have within : ∀ cond, (∃ component ∈ connectedComponents (neighboursOf conditions) conditions, cond ∈ component) ↔
      cond ∈ conditions := fun cond => mem_flatten_connectedComponents (neighboursOf conditions)
  have isFirst : first ∈ conditionsOfVar conditions name := by simp [isConditions]
  have inConditions := mem_conditionsOfVar.mpr ⟨(within node).mp ⟨component, isComponent, isNode⟩, occurs⟩
  rw [isConditions, List.mem_cons] at inConditions
  cases inConditions with
  | inl isFirst => exact isFirst ▸ isNode
  | inr isRest =>
    have isNeighbour : first ∈ neighboursOf conditions node :=
      mem_neighboursOf.mpr (Or.inr (mem_connectedPairs.mpr ⟨name, rest, isConditions, isRest⟩))
    exact neighbour_mem_component (fun _ _ => neighboursOf_symmetric) isComponent isNode isNeighbour
      (mem_conditionsOfVar.mp isFirst).1

/-- No variable occurs in both lists. -/
def Separate (first second : List (SymbolicAtom Pred Var Obj)) : Prop :=
  ∀ name, OccursIn name first → ¬ OccursIn name second

theorem separate_components :
    (connectedComponents (neighboursOf conditions) conditions).Pairwise Separate := by
  have disjoint := (List.nodup_flatten.mp (nodup_flatten_connectedComponents (neighboursOf conditions) conditions)).2
  refine List.Pairwise.imp_of_mem ?_ disjoint
  rintro first second isFirst isSecond noCommon name ⟨node, isNode, inNode⟩ ⟨other, isOther, inOther⟩
  have inConditions : node ∈ conditions :=
    (mem_flatten_connectedComponents (neighboursOf conditions)).mp ⟨first, isFirst, isNode⟩
  have occurs := mem_conditionsOfVar.mpr ⟨inConditions, mem_variablesOf.mpr inNode⟩
  cases isConditions : conditionsOfVar conditions name with
  | nil => simp [isConditions] at occurs
  | cons head rest =>
    exact noCommon (first_mem_component isFirst isNode (mem_variablesOf.mpr inNode) isConditions)
      (first_mem_component isSecond isOther (mem_variablesOf.mpr inOther) isConditions)

theorem mem_sortedBy {α : Type} {less : α → α → Bool} {list : List α} {element : α} :
    element ∈ sortedBy less list ↔ element ∈ list := by
  simp [sortedBy]

theorem sortedBy_perm {α : Type} (less : α → α → Bool) (list : List α) : (sortedBy less list).Perm list :=
  List.mergeSort_perm _ _

instance : Std.Symm (Separate : List (SymbolicAtom Pred Var Obj) → _ → Prop) where
  symm _ _ separate name inSecond inFirst := separate name inFirst inSecond

/-- What is reached from one condition cannot be divided. -/
theorem connected_of_component (isComponent : Component (neighboursOf conditions) component)
    (hasVariables : ∀ node ∈ component, ∃ name, name ∈ variablesOf node)
    {atoms : List (SymbolicAtom Pred Var Obj)} (same : ∀ node, node ∈ atoms ↔ node ∈ component) :
    Connected atoms := by
  obtain ⟨root, isRoot, reached⟩ := isComponent
  -- All of the atoms are in the part with the root unless the parts have a common variable.
  have withRoot : ∀ first second : List (SymbolicAtom Pred Var Obj), atoms.Perm (first ++ second) →
      root ∈ first → second ≠ [] → ∃ name, OccursIn name first ∧ OccursIn name second := by
    intro first second isDivision inFirst someSecond
    have inParts : ∀ node ∈ component, node ∈ first ∨ node ∈ second := fun node isNode =>
      List.mem_append.mp (isDivision.mem_iff.mp ((same node).mpr isNode))
    by_contra noShared
    have allFirst : ∀ node ∈ component, node ∈ first := by
      refine reached (· ∈ first) (fun start isStart _ => ?_) fun node _ isFirst other isOther isNeighbour => ?_
      · rwa [List.mem_singleton.mp isStart]
      · obtain ⟨name, inNode, inOther⟩ := exists_shared_of_neighbour isNeighbour
        refine (inParts other isOther).resolve_right fun isSecond => noShared ⟨name, ?_, ?_⟩
        · exact ⟨node, isFirst, mem_variablesOf.mp inNode⟩
        · exact ⟨other, isSecond, mem_variablesOf.mp inOther⟩
    obtain ⟨node, isSecond⟩ := List.exists_mem_of_ne_nil second someSecond
    have isNode : node ∈ component := (same node).mp (isDivision.mem_iff.mpr (List.mem_append_right _ isSecond))
    obtain ⟨name, occurs⟩ := hasVariables node isNode
    exact noShared ⟨name, ⟨node, allFirst node isNode, mem_variablesOf.mp occurs⟩, node, isSecond, mem_variablesOf.mp occurs⟩
  intro first second isDivision someFirst someSecond
  cases List.mem_append.mp (isDivision.mem_iff.mp ((same root).mpr isRoot)) with
  | inl inFirst => exact withRoot first second isDivision inFirst someSecond
  | inr inSecond =>
    obtain ⟨name, occursSecond, occursFirst⟩ :=
      withRoot second first (isDivision.trans List.perm_append_comm) inSecond someFirst
    exact ⟨name, occursFirst, occursSecond⟩

/-- The conditions are divided into connected parts without common variables. -/
structure Divides (conditions : List (SymbolicAtom Pred Var Obj))
    (components : List (List (SymbolicAtom Pred Var Obj))) : Prop where
  members : ∀ node, node ∈ components.flatten ↔ node ∈ conditions
  distinct : components.flatten.Nodup
  nonempty : ∀ component ∈ components, component ≠ []
  connected : ∀ component ∈ components, ∀ atoms : List (SymbolicAtom Pred Var Obj),
    (∀ node, node ∈ atoms ↔ node ∈ component) → Connected atoms
  separate : components.Pairwise Separate

theorem getConnectedConditions_divides
    (less : SymbolicAtom Pred Var Obj → SymbolicAtom Pred Var Obj → Bool)
    (hasVariables : ∀ cond ∈ conditions, ∃ name, name ∈ variablesOf cond) :
    Divides conditions (getConnectedConditions less conditions) := by
  have isPerm : (getConnectedConditions less conditions).Perm
      ((connectedComponents (neighboursOf conditions) conditions).map (sortedBy less)) := sortedBy_perm _ _
  have isSorted : ∀ component ∈ getConnectedConditions less conditions,
      ∃ unsorted ∈ connectedComponents (neighboursOf conditions) conditions, sortedBy less unsorted = component :=
    fun component isComponent => List.mem_map.mp (isPerm.mem_iff.mp isComponent)
  have flattenPerm : (getConnectedConditions less conditions).flatten.Perm
      (connectedComponents (neighboursOf conditions) conditions).flatten := by
    refine isPerm.flatten.trans ?_
    rw [← List.flatMap_def]
    have each : ∀ component ∈ connectedComponents (neighboursOf conditions) conditions,
        (sortedBy less component).Perm (id component) := fun component _ => sortedBy_perm less component
    simpa using List.Perm.flatMap_left _ each
  constructor
  · intro node
    rw [flattenPerm.mem_iff, List.mem_flatten]
    exact mem_flatten_connectedComponents _
  · exact flattenPerm.nodup_iff.mpr (nodup_flatten_connectedComponents _ _)
  · intro component isComponent isEmpty
    obtain ⟨unsorted, isUnsorted, rfl⟩ := isSorted component isComponent
    obtain ⟨root, isRoot, _⟩ := component_of_mem isUnsorted
    have isElement : root ∈ sortedBy less unsorted := mem_sortedBy.mpr isRoot
    rw [isEmpty] at isElement
    cases isElement
  · intro component isComponent atoms same
    obtain ⟨unsorted, isUnsorted, rfl⟩ := isSorted component isComponent
    refine connected_of_component (component_of_mem isUnsorted) (fun node isNode => hasVariables node ?_) fun node => ?_
    · exact (mem_flatten_connectedComponents _).mp ⟨unsorted, isUnsorted, isNode⟩
    · rw [same, mem_sortedBy]
  · refine (isPerm.pairwise_iff fun {_ _} => Std.Symm.symm _ _).mpr (List.pairwise_map.mpr ?_)
    refine separate_components.imp fun {first second} separate name => ?_
    rw [occursIn_perm (sortedBy_perm less first), occursIn_perm (sortedBy_perm less second)]
    exact separate name

end Graph

/-! ## The projections of the components -/

section Projections

variable {newName : ℕ → Pred} {le : Term Var Obj → Term Var Obj → Bool}
  {rule : DatalogRule Pred Var Obj} {conditions others : List (SymbolicAtom Pred Var Obj)}
  {components : List (List (SymbolicAtom Pred Var Obj))} {count : ℕ}

theorem occursIn_iff {name : Var} : OccursIn name conditions ↔ ∃ cond ∈ conditions, name ∈ variablesOf cond := by
  simp [OccursIn]

theorem mem_projectRule_effect {name : Var} :
    name ∈ variablesOf (projectRule newName le rule conditions count).effect ↔
      name ∈ variablesOf rule.effect ∧ OccursIn name conditions := by
  simp [projectRule, OccursIn]

theorem projectRule_normal (distinct : ∀ cond ∈ conditions, (variablesOf cond).Nodup) (nonempty : conditions ≠ []) :
    NormalRule (projectRule newName le rule conditions count) where
  distinctEffect := by
    apply nodup_variablesOf
    rw [(List.mergeSort_perm _ _).nodup_iff]
    exact (List.nodup_dedup _).filter _
  distinctConditions := distinct
  bound := fun _ inEffect => (mem_projectRule_effect.mp inEffect).2
  nonempty := nonempty

theorem keepsShared_append {first second : List (SymbolicAtom Pred Var Obj)}
    {effect : SymbolicAtom Pred Var Obj} :
    KeepsShared ⟨first ++ second, effect⟩ ↔ KeepsShared ⟨first, effect⟩ ∧ KeepsShared ⟨second, effect⟩ ∧
      ∀ cond ∈ first, ∀ cond' ∈ second, ∀ name ∈ variablesOf cond, name ∈ variablesOf cond' → name ∈ variablesOf effect :=
  List.pairwise_append

theorem keepsShared_of_separate {first second : List (SymbolicAtom Pred Var Obj)}
    {effect : SymbolicAtom Pred Var Obj} (firstKeeps : KeepsShared ⟨first, effect⟩)
    (secondKeeps : KeepsShared ⟨second, effect⟩) (separate : Separate first second) :
    KeepsShared ⟨first ++ second, effect⟩ := by
  refine keepsShared_append.mpr ⟨firstKeeps, secondKeeps, fun cond isFirst cond' isSecond name inFirst inSecond => ?_⟩
  exact absurd ⟨cond', isSecond, mem_variablesOf.mp inSecond⟩ (separate name ⟨cond, isFirst, mem_variablesOf.mp inFirst⟩)

theorem separate_append {first second third : List (SymbolicAtom Pred Var Obj)} :
    Separate first (second ++ third) ↔ Separate first second ∧ Separate first third := by
  simp only [Separate, occursIn_append, not_or]
  exact ⟨fun separate => ⟨fun name occurs => (separate name occurs).1, fun name occurs => (separate name occurs).2⟩,
    fun separate name occurs => ⟨separate.1 name occurs, separate.2 name occurs⟩⟩

theorem separate_flatten {first : List (SymbolicAtom Pred Var Obj)} :
    Separate first components.flatten ↔ ∀ component ∈ components, Separate first component := by
  constructor
  · rintro separate component isComponent name inFirst ⟨cond, isCond, occurs⟩
    exact separate name inFirst ⟨cond, List.mem_flatten.mpr ⟨component, isComponent, isCond⟩, occurs⟩
  · rintro separate name inFirst ⟨cond, isCond, occurs⟩
    obtain ⟨component, isComponent, isCond⟩ := List.mem_flatten.mp isCond
    exact separate component isComponent name inFirst ⟨cond, isCond, occurs⟩

/-- The projections take the places of the components. -/
theorem projectRules_rewrites (le : Term Var Obj → Term Var Obj → Bool)
    (rule : DatalogRule Pred Var Obj) (count : ℕ) (injective : Function.Injective newName) (separate : components.Pairwise Separate)
    (apart : ∀ component ∈ components, Separate others component) :
    Rewrites newName {⟨others ++ components.flatten, rule.effect⟩} count
      ({⟨others ++ (projectRules newName le rule components count).map DatalogRule.effect, rule.effect⟩} ∪
        {projected | projected ∈ projectRules newName le rule components count}) (count + components.length) := by
  induction components generalizing others count with
  | nil => simpa [projectRules] using Rewrites.refl _ le_rfl
  | cons component components inductionHypothesis =>
    obtain ⟨apartFirst, apartRest⟩ := List.forall_mem_cons.mp apart
    obtain ⟨separateFirst, separateRest⟩ := List.pairwise_cons.mp separate
    have separateFlat : Separate component components.flatten := separate_flatten.mpr separateFirst
    set part := projectRule newName le rule component count with isPart
    have partNames : ∀ name, OccursIn name [part.effect] → OccursIn name component := by
      intro name occurs
      rw [occursIn_cons, or_iff_left not_occursIn_nil, ← mem_variablesOf] at occurs
      exact (mem_projectRule_effect.mp occurs).2
    have folds : Folds ⟨others ++ (component :: components).flatten, rule.effect⟩ part
        ⟨others ++ [part.effect] ++ components.flatten, rule.effect⟩ (others ++ components.flatten) := by
      refine ⟨rfl, fun cond => ?_, fun cond => ?_, fun name inPart elsewhere => ?_⟩
      · simp only [List.flatten_cons, List.mem_append, isPart, projectRule]
        tauto
      · simp only [List.mem_append, List.mem_singleton]
        tauto
      · have noOther : ¬ OccursIn name (others ++ components.flatten) := by
          rw [occursIn_append, not_or]
          exact ⟨fun inOthers => apartFirst name inOthers inPart, separateFlat name inPart⟩
        rw [← mem_variablesOf, isPart, mem_projectRule_effect]
        exact ⟨mem_variablesOf.mpr (elsewhere.resolve_left noOther), inPart⟩
    have keepsShared : KeepsShared ⟨others ++ (component :: components).flatten, rule.effect⟩ →
        KeepsShared part ∧ KeepsShared ⟨others ++ [part.effect] ++ components.flatten, rule.effect⟩ := by
      intro wholeKeeps
      rw [List.flatten_cons, keepsShared_append, keepsShared_append] at wholeKeeps
      obtain ⟨othersKeep, ⟨componentKeeps, restKeeps, _⟩, _⟩ := wholeKeeps
      constructor
      · refine List.Pairwise.imp_of_mem ?_ componentKeeps
        intro first second isFirst _ shares name inFirst inSecond
        refine mem_projectRule_effect.mpr ⟨shares name inFirst inSecond, first, isFirst, mem_variablesOf.mp inFirst⟩
      · rw [List.append_assoc]
        refine keepsShared_of_separate othersKeep ?_ (separate_append.mpr ⟨?_, separate_flatten.mpr apartRest⟩)
        · refine keepsShared_of_separate (List.pairwise_singleton _ _) restKeeps fun name inPart => ?_
          exact separateFlat name (partNames name inPart)
        · exact fun name inOthers inPart => apartFirst name inOthers (partNames name inPart)
    have apartNext : ∀ next ∈ components, Separate (others ++ [part.effect]) next := by
      intro next isNext name occurs
      cases occursIn_append.mp occurs with
      | inl inOthers => exact apartRest next isNext name inOthers
      | inr inPart => exact separateFirst next isNext name (partNames name inPart)
    have first : Rewrites newName {⟨others ++ (component :: components).flatten, rule.effect⟩} count
        ({⟨others ++ [part.effect] ++ components.flatten, rule.effect⟩} ∪ {part}) (count + 1) := by
      rw [Set.singleton_union, Set.pair_comm]
      exact Rewrites.fold folds rfl keepsShared
    have rest := (inductionHypothesis (count + 1) separateRest apartNext).frame {part}
    have sameRules : {projected | projected ∈ projectRules newName le rule (component :: components) count} =
        {projected | projected ∈ projectRules newName le rule components (count + 1)} ∪ {part} := by
      ext projected
      simp [projectRules, isPart]
    rw [sameRules, ← Set.union_assoc]
    have both := first.trans injective rest
    rw [List.append_assoc, List.singleton_append, Nat.add_right_comm] at both
    exact both

end Projections

/-! ## The rules of a rule -/

section Rules

variable {newName : ℕ → Pred} {le : Term Var Obj → Term Var Obj → Bool}
  {less : SymbolicAtom Pred Var Obj → SymbolicAtom Pred Var Obj → Bool}
  {rule : DatalogRule Pred Var Obj} {conditions : List (SymbolicAtom Pred Var Obj)}
  {effect : SymbolicAtom Pred Var Obj} {components : List (List (SymbolicAtom Pred Var Obj))}

theorem splitIntoBinaryRules_splits (count : ℕ) (injective : Function.Injective newName) (normal : NormalRule rule)
    (connected : Connected rule.conditions) :
    Splits newName {rule} count (splitIntoBinaryRules newName le rule count).1
      (splitIntoBinaryRules newName le rule count).2 := by
  rw [splitIntoBinaryRules]
  by_cases single : rule.conditions.length ≤ 1
  · rw [if_pos single]
    have nonempty := List.length_pos_iff.mpr normal.nonempty
    obtain ⟨condition, isCondition⟩ := List.length_eq_one_iff.mp (show rule.conditions.length = 1 by omega)
    let typed : TypedRule Pred Var Obj := ⟨.project, rule⟩
    have converts : (convertRule typed).isSome = true := by
      simp [convertRule, typed, variablesToNumbers, isCondition, BuildRule.ofType?]
    exact (Splits.single normal converts : Splits newName {typed.rule} count [typed] count)
  · rw [if_neg single]
    exact greedyJoin_splits injective normal connected (by omega)

theorem splitAllIntoBinaryRules_splits (le : Term Var Obj → Term Var Obj → Bool)
    (injective : Function.Injective newName) :
    ∀ (rules : List (DatalogRule Pred Var Obj)) (count : ℕ),
      (∀ rule ∈ rules, NormalRule rule ∧ Connected rule.conditions) →
        Splits newName {rule | rule ∈ rules} count (splitAllIntoBinaryRules newName le rules count).1
          (splitAllIntoBinaryRules newName le rules count).2
  | [], count, _ => by
    have noRule : {rule : DatalogRule Pred Var Obj | rule ∈ []} = ∅ := by simp
    rw [noRule]
    exact Splits.nil count
  | rule :: rules, count, ready => by
    have ⟨⟨normal, connected⟩, readyRest⟩ := List.forall_mem_cons.mp ready
    have isUnion : {other | other ∈ rule :: rules} = {rule} ∪ {other | other ∈ rules} := by
      ext other
      simp
    rw [isUnion]
    exact (splitIntoBinaryRules_splits count injective normal connected).append injective
      (splitAllIntoBinaryRules_splits le injective rules _ readyRest)

theorem convertRule_product (distinct : (variablesOf effect).Nodup) (several : 2 ≤ conditions.length)
    (separate : conditions.Pairwise fun first second => ∀ name ∈ variablesOf first, name ∉ variablesOf second)
    (names : ∀ name, name ∈ variablesOf effect ↔ OccursIn name conditions) :
    (convertRule ⟨.product, ⟨conditions, effect⟩⟩).isSome = true := by
  have valid : (ProductRule.ofConditions (variablesToNumbers effect conditions).1
      (variablesToNumbers effect conditions).2).validate = true := by
    rw [productRule_validate_iff]
    have distinctVars : (((variablesToNumbers effect conditions).2.map fun condition =>
        (variableArgs condition).dedup).flatten).Nodup := by
      rw [List.nodup_flatten]
      constructor
      · simp [List.nodup_dedup]
      · simp only [variablesToNumbers, List.map_map, List.pairwise_map]
        refine separate.imp fun {first second} apart argument inFirst inSecond => ?_
        simp only [Function.comp_apply, List.mem_dedup, mem_variableArgs_numbered] at inFirst inSecond
        obtain ⟨name, occurs, rfl⟩ := inFirst
        obtain ⟨other, occursOther, same⟩ := inSecond
        exact apart name occurs (numberArgument_var_injective distinct same ▸ occursOther)
    refine ⟨by simpa [variablesToNumbers, ProductRule.ofConditions] using several, ?_, ?_⟩
    · apply List.Perm.length_eq
      rw [List.perm_ext_iff_of_nodup (List.nodup_dedup _) (List.nodup_dedup _)]
      intro argument
      simp only [ProductRule.ofConditions, List.mem_dedup, List.mem_flatten, List.mem_map, variablesToNumbers, exists_exists_and_eq_and,
        mem_variableArgs_numbered, mem_variableArgs_effect distinct, names, occursIn_iff]
      constructor
      · rintro ⟨condition, isCondition, name, occurs, rfl⟩
        exact ⟨name, ⟨condition, isCondition, occurs⟩, rfl⟩
      · rintro ⟨name, ⟨condition, isCondition, occurs⟩, rfl⟩
        exact ⟨condition, isCondition, name, occurs, rfl⟩
    · rw [ProductRule.ofConditions, List.dedup_eq_self.mpr distinctVars, List.length_flatten]
  simp only [convertRule, BuildRule.ofType?]
  rw [if_pos valid]
  rfl

/-- The last rule has all variables of the effect in conditions without common variables. -/
theorem combiningRule_splits (count : ℕ) (distinct : (variablesOf effect).Nodup)
    (distinctConditions : ∀ condition ∈ conditions, (variablesOf condition).Nodup) (nonempty : conditions ≠ [])
    (separate : conditions.Pairwise fun first second => ∀ name ∈ variablesOf first, name ∉ variablesOf second)
    (names : ∀ name, name ∈ variablesOf effect ↔ OccursIn name conditions) :
    Splits newName {⟨conditions, effect⟩} count [combiningRule conditions effect] count := by
  have normal : NormalRule (combiningRule conditions effect).rule :=
    ⟨distinct, distinctConditions, fun name occurs => (names name).mp occurs, nonempty⟩
  have converts : (convertRule (combiningRule conditions effect)).isSome = true := by
    rw [combiningRule]
    by_cases several : 2 ≤ conditions.length
    · rw [if_pos several]
      exact convertRule_product distinct several separate names
    · rw [if_neg several]
      have := List.length_pos_iff.mpr nonempty
      obtain ⟨condition, rfl⟩ := List.length_eq_one_iff.mp (show conditions.length = 1 by omega)
      rfl
  exact Splits.single normal converts

theorem hasVariable_iff {cond : SymbolicAtom Pred Var Obj} :
    hasVariable cond = true ↔ ∃ name, name ∈ variablesOf cond := by
  rw [hasVariable, Bool.not_eq_true', List.isEmpty_eq_false_iff_exists_mem]

theorem mem_projectRules {projected : DatalogRule Pred Var Obj} {count : ℕ}
    (isProjected : projected ∈ projectRules newName le rule components count) :
    ∃ component ∈ components, ∃ number, projected = projectRule newName le rule component number := by
  induction components generalizing count with
  | nil => cases isProjected
  | cons component components inductionHypothesis =>
    rw [projectRules, List.mem_cons] at isProjected
    cases isProjected with
    | inl isFirst => exact ⟨component, List.mem_cons_self, count, isFirst⟩
    | inr isLater =>
      obtain ⟨later, isComponent, number, isProjection⟩ := inductionHypothesis isLater
      exact ⟨later, List.mem_cons_of_mem _ isComponent, number, isProjection⟩

theorem mem_effects_of_component {name : Var} {count : ℕ} :
    OccursIn name ((projectRules newName le rule components count).map DatalogRule.effect) ↔
      name ∈ variablesOf rule.effect ∧ OccursIn name components.flatten := by
  induction components generalizing count with
  | nil => simp [projectRules]
  | cons component components inductionHypothesis =>
    rw [projectRules, List.map_cons, occursIn_cons, inductionHypothesis, List.flatten_cons, occursIn_append,
      ← mem_variablesOf, mem_projectRule_effect]
    tauto

theorem pairwise_effects (separate : components.Pairwise Separate) (count : ℕ) :
    ((projectRules newName le rule components count).map DatalogRule.effect).Pairwise
      fun first second => ∀ name ∈ variablesOf first, name ∉ variablesOf second := by
  induction components generalizing count with
  | nil => exact .nil
  | cons component components inductionHypothesis =>
    obtain ⟨separateFirst, separateRest⟩ := List.pairwise_cons.mp separate
    rw [projectRules, List.map_cons, List.pairwise_cons]
    refine ⟨fun other isOther name inFirst inOther => ?_, inductionHypothesis separateRest (count + 1)⟩
    have occurs := (mem_effects_of_component.mp ⟨other, isOther, mem_variablesOf.mp inOther⟩).2
    exact separate_flatten.mpr separateFirst name (mem_projectRule_effect.mp inFirst).2 occurs

/-- Conditions without variables, and components of the others. -/
structure Parts (rule : DatalogRule Pred Var Obj)
    (components : List (List (SymbolicAtom Pred Var Obj)))
    (trivialConditions : List (SymbolicAtom Pred Var Obj)) : Prop where
  members : ∀ cond, cond ∈ rule.conditions ↔ cond ∈ trivialConditions ++ components.flatten
  noVariables : ∀ cond ∈ trivialConditions, ∀ name, name ∉ variablesOf cond
  distinct : components.flatten.Nodup
  nonempty : ∀ component ∈ components, component ≠ []
  connected : ∀ component ∈ components, Connected component
  separate : components.Pairwise Separate

namespace Parts

variable {trivialConditions : List (SymbolicAtom Pred Var Obj)}

theorem separate_trivial (parts : Parts rule components trivialConditions)
    (others : List (SymbolicAtom Pred Var Obj)) : Separate trivialConditions others := by
  rintro name ⟨cond, isTrivial, occurs⟩
  exact absurd (mem_variablesOf.mpr occurs) (parts.noVariables cond isTrivial name)

theorem keepsShared (parts : Parts rule components trivialConditions) (ruleKeeps : KeepsShared rule) :
    KeepsShared ⟨trivialConditions ++ components.flatten, rule.effect⟩ := by
  refine keepsShared_of_separate ?_ ?_ (parts.separate_trivial _)
  · refine List.pairwise_of_forall_mem_list fun first isTrivial second _ name occurs => ?_
    exact absurd occurs (parts.noVariables first isTrivial name)
  · -- Different conditions of the components stand at different places of the rule.
    have symmetric : Std.Symm fun first second : SymbolicAtom Pred Var Obj =>
        ∀ name ∈ variablesOf first, name ∈ variablesOf second → name ∈ variablesOf rule.effect :=
      ⟨fun first second shared name inSecond inFirst => shared name inFirst inSecond⟩
    refine parts.distinct.pairwise_of_forall_ne fun first isFirst second isSecond different => ?_
    exact ruleKeeps.forall ((parts.members first).mpr (List.mem_append_right _ isFirst))
      ((parts.members second).mpr (List.mem_append_right _ isSecond)) different

theorem mem_rule (parts : Parts rule components trivialConditions)
    {component : List (SymbolicAtom Pred Var Obj)} (isComponent : component ∈ components)
    {cond : SymbolicAtom Pred Var Obj} (isCond : cond ∈ component) : cond ∈ rule.conditions :=
  (parts.members cond).mpr (List.mem_append_right _ (List.mem_flatten.mpr ⟨component, isComponent, isCond⟩))

theorem combining_splits (parts : Parts rule components trivialConditions) (normal : NormalRule rule)
    (count projectCount : ℕ) :
    Splits newName
      {⟨(projectRules newName le rule components projectCount).map DatalogRule.effect ++ trivialConditions, rule.effect⟩}
      count [combiningRule
        ((projectRules newName le rule components projectCount).map DatalogRule.effect ++ trivialConditions) rule.effect]
      count := by
  have onlyComponents : ∀ name, ¬ OccursIn name trivialConditions := by
    rintro name ⟨cond, isTrivial, occurs⟩
    exact parts.noVariables cond isTrivial name (mem_variablesOf.mpr occurs)
  apply combiningRule_splits count normal.distinctEffect
  · intro condition member
    cases List.mem_append.mp member with
    | inl isEffect =>
      obtain ⟨projected, isProjected, rfl⟩ := List.mem_map.mp isEffect
      obtain ⟨component, isComponent, number, rfl⟩ := mem_projectRules isProjected
      refine (projectRule_normal (fun cond isCond => ?_) (parts.nonempty component isComponent)).distinctEffect
      exact normal.distinctConditions cond (parts.mem_rule isComponent isCond)
    | inr isTrivial =>
      refine normal.distinctConditions condition ((parts.members condition).mpr (List.mem_append_left _ isTrivial))
  · intro isEmpty
    obtain ⟨noEffect, noTrivial⟩ := List.append_eq_nil_iff.mp isEmpty
    have noComponent : components = [] := by
      cases components with
      | nil => rfl
      | cons component components => simp [projectRules] at noEffect
    obtain ⟨cond, isCond⟩ := List.exists_mem_of_ne_nil _ normal.nonempty
    have := (parts.members cond).mp isCond
    simp [noTrivial, noComponent] at this
  · refine List.pairwise_append.mpr ⟨pairwise_effects parts.separate projectCount, ?_, ?_⟩
    · refine List.pairwise_of_forall_mem_list fun first isTrivial second _ name occurs => ?_
      exact absurd occurs (parts.noVariables first isTrivial name)
    · exact fun first _ second isTrivial name _ => parts.noVariables second isTrivial name
  · intro name
    rw [occursIn_append, or_iff_left (onlyComponents name), mem_effects_of_component]
    refine ⟨fun inEffect => ⟨inEffect, ?_⟩, And.left⟩
    obtain ⟨cond, isCond, occurs⟩ := normal.bound name inEffect
    refine ⟨cond, ?_, occurs⟩
    refine (List.mem_append.mp ((parts.members cond).mp isCond)).resolve_left fun isTrivial => ?_
    exact onlyComponents name ⟨cond, isTrivial, occurs⟩

theorem splits (parts : Parts rule components trivialConditions) (normal : NormalRule rule) (count : ℕ)
    (injective : Function.Injective newName) :
    Splits newName {rule} count
      ((splitAllIntoBinaryRules newName le (projectRules newName le rule components count)
          (count + components.length)).1 ++
        [combiningRule ((projectRules newName le rule components count).map DatalogRule.effect ++ trivialConditions)
          rule.effect])
      (splitAllIntoBinaryRules newName le (projectRules newName le rule components count)
        (count + components.length)).2 := by
  have reordered : Rewrites newName {rule} count {⟨trivialConditions ++ components.flatten, rule.effect⟩} count :=
    Rewrites.reorder parts.members parts.keepsShared
  have projected := projectRules_rewrites le rule count injective parts.separate fun component _ =>
    parts.separate_trivial component
  set rules := projectRules newName le rule components count with isRules
  have combined : Rewrites newName
      {⟨trivialConditions ++ rules.map DatalogRule.effect, rule.effect⟩} (count + components.length)
      {⟨rules.map DatalogRule.effect ++ trivialConditions, rule.effect⟩} (count + components.length) :=
    Rewrites.reorder (fun _ => List.perm_append_comm.mem_iff) (KeepsShared.perm List.perm_append_comm)
  have rewrites := ((reordered.trans injective projected).trans injective (combined.frame _))
  rw [Set.union_comm] at rewrites
  have ready : ∀ projected ∈ rules, NormalRule projected ∧ Connected projected.conditions := by
    intro projected isProjected
    obtain ⟨component, isComponent, number, rfl⟩ := mem_projectRules isProjected
    refine ⟨projectRule_normal (fun cond isCond => ?_) (parts.nonempty component isComponent),
      parts.connected component isComponent⟩
    exact normal.distinctConditions cond (parts.mem_rule isComponent isCond)
  have binary := splitAllIntoBinaryRules_splits le injective rules (count + components.length) ready
  exact Splits.of_rewrites rewrites injective (binary.append injective (parts.combining_splits normal _ count))

end Parts

theorem splitRule_splits (count : ℕ) (injective : Function.Injective newName) (normal : NormalRule rule) :
    Splits newName {rule} count (splitRule newName le less rule count).1 (splitRule newName le less rule count).2 := by
  simp only [splitRule]
  set important := rule.conditions.filter hasVariable with isImportant
  set trivialConditions := rule.conditions.filter fun cond => !hasVariable cond with isTrivial
  set components := getConnectedConditions less important with isComponents
  have mem_important : ∀ {cond}, cond ∈ important ↔ cond ∈ rule.conditions ∧ ∃ name, name ∈ variablesOf cond := by
    intro cond
    rw [isImportant, List.mem_filter, hasVariable_iff]
  have noVariables : ∀ {cond}, cond ∈ trivialConditions → ∀ name, name ∉ variablesOf cond := by
    intro cond member name occurs
    rw [isTrivial, List.mem_filter, Bool.not_eq_true', ← Bool.not_eq_true, hasVariable_iff] at member
    exact member.2 ⟨name, occurs⟩
  have divides : Divides important components := getConnectedConditions_divides less fun cond member =>
    (mem_important.mp member).2
  have inRule : ∀ {component cond}, component ∈ components → cond ∈ component → cond ∈ rule.conditions := by
    intro component cond isComponent member
    have := (divides.members cond).mp (List.mem_flatten.mpr ⟨component, isComponent, member⟩)
    exact (mem_important.mp this).1
  by_cases whole : components.length = 1 ∧ trivialConditions = []
  · rw [if_pos whole]
    obtain ⟨component, isSingle⟩ := List.length_eq_one_iff.mp whole.1
    refine splitIntoBinaryRules_splits count injective normal ?_
    refine divides.connected component (by simp [isSingle]) rule.conditions fun cond => ?_
    have members := divides.members cond
    rw [isSingle, List.flatten_singleton] at members
    rw [members, mem_important]
    refine ⟨fun member => ⟨member, ?_⟩, And.left⟩
    rw [← hasVariable_iff]
    by_contra noVariable
    have isElement : cond ∈ trivialConditions := by
      rw [isTrivial, List.mem_filter]
      exact ⟨member, by simpa using noVariable⟩
    rw [whole.2] at isElement
    cases isElement
  · rw [if_neg whole]
    have parts : Parts rule components trivialConditions := by
      refine ⟨fun cond => ?_, fun cond isTrivial => noVariables isTrivial, divides.distinct, divides.nonempty,
        fun component isComponent => divides.connected component isComponent component fun _ => Iff.rfl,
        divides.separate⟩
      rw [List.mem_append, divides.members cond, isTrivial, isImportant, List.mem_filter, List.mem_filter]
      cases hasVariable cond <;> simp
    exact parts.splits normal count injective

theorem splitRules_splits (le : Term Var Obj → Term Var Obj → Bool)
    (less : SymbolicAtom Pred Var Obj → SymbolicAtom Pred Var Obj → Bool)
    (injective : Function.Injective newName) :
    ∀ (rules : List (DatalogRule Pred Var Obj)) (count : ℕ), (∀ rule ∈ rules, NormalRule rule) →
      Splits newName {rule | rule ∈ rules} count (splitRules newName le less rules count).1
        (splitRules newName le less rules count).2
  | [], count, _ => by
    have noRule : {rule : DatalogRule Pred Var Obj | rule ∈ []} = ∅ := by simp
    rw [noRule]
    exact Splits.nil count
  | rule :: rules, count, normal => by
    have ⟨normalFirst, normalRest⟩ := List.forall_mem_cons.mp normal
    have isUnion : {other | other ∈ rule :: rules} = {rule} ∪ {other | other ∈ rules} := by
      ext other
      simp
    rw [isUnion]
    exact (splitRule_splits count injective normalFirst).append injective (splitRules_splits le less injective rules _ normalRest)

end Rules

end CutPlan.Translate
