import CutPlan.Lib.TokenStream
import Mathlib.Algebra.Order.Field.Rat
import Mathlib.Data.Rat.Defs

/-! # Numeric operators

The operators of numeric effects, arithmetic axioms and comparison axioms, with the symbols that
stand for them in the text formats.  Values are exact rationals.
-/

namespace CutPlan.Sas

open CutPlan.Lib

inductive NumType where
  | unknown
  | constant
  | derived
  | instrumentation
  | regular
  deriving DecidableEq, Repr

inductive FOperator where
  | assign
  | scaleUp
  | scaleDown
  | increase
  | decrease
  deriving DecidableEq, Repr

inductive CalOperator where
  | sum
  | diff
  | mult
  | divi
  deriving DecidableEq, Repr

inductive CompOperator where
  | lt
  | le
  | eq
  | ge
  | gt
  | ue
  deriving DecidableEq, Repr

/-- `assign_effect`: the new value of the affected variable. -/
def FOperator.assignEffect (fop : FOperator) (affValue assValue : ℚ) : ℚ :=
  match fop with
  | .assign => assValue
  | .scaleUp => affValue * assValue
  | .scaleDown => affValue / assValue
  | .increase => affValue + assValue
  | .decrease => affValue - assValue

def CalOperator.eval (op : CalOperator) (left right : ℚ) : ℚ :=
  match op with
  | .sum => left + right
  | .diff => left - right
  | .mult => left * right
  | .divi => left / right

def CompOperator.eval (op : CompOperator) (left right : ℚ) : Bool :=
  match op with
  | .lt => left < right
  | .le => left ≤ right
  | .eq => left = right
  | .ge => right ≤ left
  | .gt => right < left
  | .ue => left ≠ right

namespace FOperator

def symbol : FOperator → String
  | .assign => "="
  | .scaleUp => "*"
  | .scaleDown => "/"
  | .increase => "+"
  | .decrease => "-"

def ofSymbol (text : String) : Option FOperator :=
  if text = "=" then some .assign
  else if text = "+" then some .increase
  else if text = "-" then some .decrease
  else if text = "*" then some .scaleUp
  else if text = "/" then some .scaleDown
  else none

@[simp] theorem ofSymbol_symbol (fop : FOperator) : ofSymbol fop.symbol = some fop := by
  cases fop <;> decide

def read : Reader FOperator := do
  let text ← Reader.word
  StateT.lift (ofSymbol text)

theorem reads (fop : FOperator) : Reads read [.word fop.symbol] fop := by
  intro rest
  simp [read, Reader.word, StateT.run, StateT.lift, bind, StateT.bind]

end FOperator

namespace CalOperator

def symbol : CalOperator → String
  | .sum => "+"
  | .diff => "-"
  | .mult => "*"
  | .divi => "/"

def ofSymbol (text : String) : Option CalOperator :=
  if text = "+" then some .sum
  else if text = "-" then some .diff
  else if text = "*" then some .mult
  else if text = "/" then some .divi
  else none

@[simp] theorem ofSymbol_symbol (op : CalOperator) : ofSymbol op.symbol = some op := by
  cases op <;> decide

def read : Reader CalOperator := do
  let text ← Reader.word
  StateT.lift (ofSymbol text)

theorem reads (op : CalOperator) : Reads read [.word op.symbol] op := by
  intro rest
  simp [read, Reader.word, StateT.run, StateT.lift, bind, StateT.bind]

end CalOperator

end CutPlan.Sas
