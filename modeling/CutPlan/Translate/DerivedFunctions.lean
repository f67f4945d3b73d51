import CutPlan.Translate.FunctionalExpression
import Mathlib.Data.List.Forall2

/-! # Derived functions

`get_derived_function` replaces an expression by a function that a numeric axiom computes.  The
axioms are shared under keys, and their parameters are generalised.
-/

namespace CutPlan.Translate

open CutPlan.Sas

inductive NumericPart where
  | numericConstant (value : ℚ)
  | pne (pne : Pne)
  deriving DecidableEq, Repr

structure NumericAxiom where
  name : Symbol
  parameters : List String
  op : Option CalOperator
  parts : List NumericPart
  deriving Repr

inductive FunctionKey where
  | constant (value : ℚ)
  | inverse (symbol : Symbol)
  | operation (op : CalOperator) (parts : List Pne)
  deriving DecidableEq, Repr

def FunctionKey.symbol : FunctionKey → Symbol
  | .constant value => .constant (str value)
  | .inverse symbol => .inverse symbol
  | .operation op parts => .operation op parts

def defaultVariables (count : ℕ) : List String :=
  (List.range count).map fun number => "?v" ++ toString number

/-- The same functions on consecutive groups of arguments. -/
def Pne.regroup : List Pne → List String → List Pne
  | [], _ => []
  | part :: parts, args =>
    .mk part.symbol (args.take part.args.length) :: regroup parts (args.drop part.args.length)

structure FunctionAdministrator where
  functions : List (FunctionKey × NumericAxiom)
  deriving Repr

namespace FunctionAdministrator

/-- No second name is ever tried for a key. -/
def getNewSymbol (admin : FunctionAdministrator) (key : FunctionKey) : Option Symbol :=
  if ∀ entry ∈ admin.functions, entry.2.name ≠ key.symbol then some key.symbol else none

def register (admin : FunctionAdministrator) (key : FunctionKey) (args : List String)
    (build : Symbol → NumericAxiom) : Option (Pne × FunctionAdministrator) :=
  match admin.functions.find? (·.1 = key) with
  | some entry => some (.mk entry.2.name args, admin)
  | none => do
    let symbol ← admin.getNewSymbol key
    return (.mk symbol args, ⟨admin.functions ++ [(key, build symbol)]⟩)

end FunctionAdministrator

namespace FunctionalExpression

mutual
def getDerivedFunction :
    FunctionalExpression → FunctionAdministrator → Option (Pne × FunctionAdministrator)
  | .numericConstant value, admin =>
    admin.register (.constant value) [] fun symbol =>
      { name := symbol, parameters := [], op := none, parts := [.numericConstant value] }
  | .primitive symbol args, admin => some (.mk (.function symbol) args, admin)
  | .additiveInverse part, admin => do
    let (subexp, admin) ← part.getDerivedFunction admin
    let defaultArgs := defaultVariables subexp.args.length
    admin.register (.inverse subexp.symbol) subexp.args fun symbol =>
      { name := symbol
        parameters := defaultArgs
        op := some .diff
        parts := [.pne (.mk subexp.symbol defaultArgs)] }
  | .arithmetic op parts, admin => do
    let (keylist, admin) ← getDerivedFunctions parts admin
    let args := keylist.flatMap Pne.args
    let defaultArgs := defaultVariables args.length
    admin.register (.operation op keylist) args fun symbol =>
      { name := symbol
        parameters := defaultArgs
        op := some op
        parts := (Pne.regroup keylist defaultArgs).map .pne }

def getDerivedFunctions :
    List FunctionalExpression → FunctionAdministrator → Option (List Pne × FunctionAdministrator)
  | [], admin => some ([], admin)
  | part :: parts, admin => do
    let (first, admin) ← part.getDerivedFunction admin
    let (rest, admin) ← getDerivedFunctions parts admin
    return (first :: rest, admin)
end

/-! ## The functions that are returned -/

mutual
def derived : FunctionalExpression → Pne
  | .numericConstant value => .mk (.constant value) []
  | .primitive symbol args => .mk (.function symbol) args
  | .additiveInverse part => .mk (.inverse part.derived.symbol) part.derived.args
  | .arithmetic op parts => .mk (.operation op (derivedAll parts)) ((derivedAll parts).flatMap Pne.args)

def derivedAll : List FunctionalExpression → List Pne
  | [] => []
  | part :: parts => part.derived :: derivedAll parts
end

mutual
/-- Operations have two or more operands, every number has at most twelve significant digits, and no
operand of a unary minus has arguments. -/
inductive Exact : FunctionalExpression → Prop where
  | numericConstant {value : ℚ} (printed : str value = value) : Exact (.numericConstant value)
  | primitive (symbol : String) (args : List String) : Exact (.primitive symbol args)
  | additiveInverse {part : FunctionalExpression} (exact : Exact part) (noArgs : part.derived.args = []) :
      Exact (.additiveInverse part)
  | arithmetic {op : CalOperator} {parts : List FunctionalExpression} (several : 2 ≤ parts.length)
      (each : ExactAll parts) : Exact (.arithmetic op parts)

inductive ExactAll : List FunctionalExpression → Prop where
  | nil : ExactAll []
  | cons {part : FunctionalExpression} {parts : List FunctionalExpression} (first : Exact part)
      (rest : ExactAll parts) : ExactAll (part :: parts)
end

end FunctionalExpression

/-! ## Shared axioms -/

namespace FunctionKey

/-- The axiom of a key.  A unary minus has no parameters. -/
def numericAxiom : FunctionKey → NumericAxiom
  | .constant value => ⟨.constant value, [], none, [.numericConstant value]⟩
  | .inverse symbol => ⟨.inverse symbol, [], some .diff, [.pne (.mk symbol [])]⟩
  | .operation op parts =>
    let defaultArgs := defaultVariables (parts.flatMap Pne.args).length
    ⟨.operation op parts, defaultArgs, some op, (Pne.regroup parts defaultArgs).map .pne⟩

def Exact : FunctionKey → Prop
  | .constant value => str value = value
  | .inverse _ => True
  | .operation _ parts => 2 ≤ parts.length

theorem Exact.symbol_inj {key key' : FunctionKey} (exact : key.Exact) (exact' : key'.Exact)
    (same : key.symbol = key'.symbol) : key = key' := by
  cases key <;> cases key' <;> simp_all [FunctionKey.symbol, Exact]

theorem Exact.name_eq {key : FunctionKey} (exact : key.Exact) : key.numericAxiom.name = key.symbol := by
  cases key with
  | constant value => simp [numericAxiom, FunctionKey.symbol, show str value = value from exact]
  | inverse symbol => rfl
  | operation op parts => rfl

end FunctionKey

namespace FunctionAdministrator

structure Sound (admin : FunctionAdministrator) : Prop where
  exact : ∀ entry ∈ admin.functions, entry.1.Exact
  numericAxiom : ∀ entry ∈ admin.functions, entry.2 = entry.1.numericAxiom

theorem Sound.empty : Sound ⟨[]⟩ := ⟨by simp, by simp⟩

variable {admin : FunctionAdministrator}

/-- Keys with exact constants have names of their own, so that none is refused. -/
theorem Sound.register (sound : admin.Sound) (key : FunctionKey) (args : List String)
    (build : Symbol → NumericAxiom) (exact : key.Exact)
    (builds : build key.symbol = key.numericAxiom) :
    ∃ registered, admin.register key args build = some (.mk key.symbol args, registered) ∧
      registered.Sound ∧ admin.functions ⊆ registered.functions ∧
      ∃ entry ∈ registered.functions, entry.1 = key := by
  unfold FunctionAdministrator.register
  cases found : admin.functions.find? (·.1 = key) with
  | some entry =>
    have isEntry := List.mem_of_find?_eq_some found
    have isKey : entry.1 = key := by simpa using List.find?_some found
    refine ⟨admin, ?_, sound, List.Subset.refl _, entry, isEntry, isKey⟩
    have hasName : entry.2.name = key.symbol := by
      rw [sound.numericAxiom entry isEntry, isKey, exact.name_eq]
    simp [hasName]
  | none =>
    have unused : ∀ entry ∈ admin.functions, entry.2.name ≠ key.symbol := by
      intro entry isEntry same
      have exactEntry := sound.exact entry isEntry
      rw [sound.numericAxiom entry isEntry, exactEntry.name_eq] at same
      have absent := List.find?_eq_none.mp found entry isEntry
      exact absent (decide_eq_true (exactEntry.symbol_inj exact same))
    have named : admin.getNewSymbol key = some key.symbol := if_pos unused
    refine ⟨⟨admin.functions ++ [(key, build key.symbol)]⟩, by simp [named], ⟨?_, ?_⟩,
      List.subset_append_left _ _, (key, build key.symbol), by simp, rfl⟩
    · intro entry isEntry
      obtain isOld | rfl := by simpa using isEntry
      · exact sound.exact entry isOld
      · exact exact
    · intro entry isEntry
      obtain isOld | rfl := by simpa using isEntry
      · exact sound.numericAxiom entry isOld
      · exact builds

end FunctionAdministrator

namespace FunctionalExpression

theorem derivedAll_eq_map (parts : List FunctionalExpression) : derivedAll parts = parts.map derived := by
  induction parts with
  | nil => rfl
  | cons part parts inductionHypothesis => simp [derivedAll, inductionHypothesis]

mutual
theorem Exact.getDerivedFunction {expression : FunctionalExpression} {admin : FunctionAdministrator}
    (exact : expression.Exact) (sound : admin.Sound) :
    ∃ extended, expression.getDerivedFunction admin = some (expression.derived, extended) ∧
      extended.Sound := by
  cases exact with
  | numericConstant printed =>
    rename_i value
    obtain ⟨extended, registers, extendedSound, _⟩ :=
      sound.register (.constant value) []
        (fun symbol => ⟨symbol, [], none, [.numericConstant value]⟩) printed
        (by simp [FunctionKey.symbol, FunctionKey.numericAxiom, printed])
    refine ⟨extended, ?_, extendedSound⟩
    simpa [FunctionalExpression.getDerivedFunction, derived, FunctionKey.symbol, printed] using registers
  | primitive symbol args => exact ⟨admin, rfl, sound⟩
  | additiveInverse exact noArgs =>
    rename_i part
    obtain ⟨visited, visits, visitedSound⟩ := exact.getDerivedFunction sound
    obtain ⟨extended, registers, extendedSound, _⟩ :=
      visitedSound.register (.inverse part.derived.symbol) part.derived.args
        (fun symbol =>
          ⟨symbol, defaultVariables part.derived.args.length, some .diff,
            [.pne (.mk part.derived.symbol (defaultVariables part.derived.args.length))]⟩)
        trivial (by simp [FunctionKey.symbol, FunctionKey.numericAxiom, noArgs, defaultVariables])
    refine ⟨extended, ?_, extendedSound⟩
    simp only [FunctionalExpression.getDerivedFunction, visits, Option.bind_eq_bind, Option.bind_some]
    exact registers
  | arithmetic several each =>
    rename_i op parts
    obtain ⟨visited, visits, visitedSound⟩ := each.getDerivedFunctions sound
    obtain ⟨extended, registers, extendedSound, _⟩ :=
      visitedSound.register (.operation op (derivedAll parts)) ((derivedAll parts).flatMap Pne.args)
        (fun symbol =>
          ⟨symbol, defaultVariables ((derivedAll parts).flatMap Pne.args).length, some op,
            (Pne.regroup (derivedAll parts)
              (defaultVariables ((derivedAll parts).flatMap Pne.args).length)).map .pne⟩)
        (show 2 ≤ (derivedAll parts).length by rwa [derivedAll_eq_map, List.length_map]) rfl
    refine ⟨extended, ?_, extendedSound⟩
    simp only [FunctionalExpression.getDerivedFunction, visits, Option.bind_eq_bind, Option.bind_some]
    exact registers
  termination_by sizeOf expression

theorem ExactAll.getDerivedFunctions {parts : List FunctionalExpression}
    {admin : FunctionAdministrator} (each : ExactAll parts) (sound : admin.Sound) :
    ∃ extended, FunctionalExpression.getDerivedFunctions parts admin = some (derivedAll parts, extended) ∧
      extended.Sound := by
  cases each with
  | nil => exact ⟨admin, rfl, sound⟩
  | cons first rest =>
    obtain ⟨visited, visits, visitedSound⟩ := first.getDerivedFunction sound
    obtain ⟨extended, extending, extendedSound⟩ := rest.getDerivedFunctions visitedSound
    refine ⟨extended, ?_, extendedSound⟩
    simp [FunctionalExpression.getDerivedFunctions, visits, extending, derivedAll]
  termination_by sizeOf parts
end

end FunctionalExpression

end CutPlan.Translate
