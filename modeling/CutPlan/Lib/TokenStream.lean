import Mathlib.Data.List.Basic
import Mathlib.Data.Rat.Defs

/-! # Token streams

A text is a list of tokens: words, which include whole lines, and numbers.  `Reads reader text value`
says that the reader consumes exactly the text, whatever follows it, and returns the value.  The
rules below follow the way readers are put together.
-/

namespace CutPlan.Lib

inductive Token where
  | word (text : String)
  | int (value : ℤ)
  | float (value : ℚ)
  deriving DecidableEq, Repr

abbrev Reader (α : Type) := StateT (List Token) Option α

namespace Reader

variable {α β γ : Type}

/-! ## Readers -/

def word : Reader String
  | .word text :: rest => some (text, rest)
  | _ => none

def int : Reader ℤ
  | .int value :: rest => some (value, rest)
  | _ => none

/-- An index or a count: a number that is not negative. -/
def nat : Reader ℕ
  | .int value :: rest => if 0 ≤ value then some (value.toNat, rest) else none
  | _ => none

def float : Reader ℚ
  | .float value :: rest => some (value, rest)
  | _ => none

/-- A word that must be the given one. -/
def magic (expected : String) : Reader Unit
  | .word text :: rest => if text = expected then some ((), rest) else none
  | _ => none

def many (reader : Reader α) : ℕ → Reader (List α)
  | 0 => pure []
  | count + 1 => do
    let value ← reader
    let values ← many reader count
    return value :: values

/-- A list preceded by its length. -/
def counted (reader : Reader α) : Reader (List α) := do
  let count ← nat
  many reader count

end Reader

def writeCounted {α : Type} (write : α → List Token) (values : List α) : List Token :=
  .int values.length :: values.flatMap write

/-! ## What a reader reads -/

def Reads {α : Type} (reader : Reader α) (text : List Token) (value : α) : Prop :=
  ∀ rest, reader.run (text ++ rest) = some (value, rest)

namespace Reads

variable {α β : Type} {reader : Reader α} {text : List Token} {value : α}

theorem run_eq (reads : Reads reader text value) : reader.run text = some (value, []) := by
  simpa using reads []

theorem pure (value : α) : Reads (Pure.pure value) [] value :=
  fun _ => rfl

theorem bind {next : α → Reader β} {more : List Token} {result : β}
    (first : Reads reader text value) (second : Reads (next value) more result) :
    Reads (reader >>= next) (text ++ more) result := by
  intro rest
  rw [List.append_assoc]
  simp only [StateT.run_bind, first (more ++ rest), Option.bind_eq_bind, Option.bind_some]
  exact second rest

/-- The last step of a reader only assembles the value. -/
theorem map (reads : Reads reader text value) (assemble : α → β) :
    Reads (reader >>= fun value => Pure.pure (assemble value)) text (assemble value) := by
  intro rest
  simp only [StateT.run_bind, reads rest, Option.bind_eq_bind, Option.bind_some]
  rfl

theorem word (text : String) : Reads Reader.word [.word text] text :=
  fun _ => rfl

theorem int (value : ℤ) : Reads Reader.int [.int value] value :=
  fun _ => rfl

theorem nat (value : ℕ) : Reads Reader.nat [.int value] value := by
  intro rest
  simp [Reader.nat, StateT.run]

theorem float (value : ℚ) : Reads Reader.float [.float value] value :=
  fun _ => rfl

theorem magic (expected : String) : Reads (Reader.magic expected) [.word expected] () := by
  intro rest
  simp [Reader.magic, StateT.run]

theorem many {write : α → List Token} {read : Reader β} {result : α → β} {values : List α}
    (each : ∀ value ∈ values, Reads read (write value) (result value)) :
    Reads (read.many values.length) (values.flatMap write) (values.map result) := by
  induction values with
  | nil => exact Reads.pure []
  | cons value values inductionHypothesis =>
    rw [List.forall_mem_cons] at each
    rw [List.flatMap_cons]
    exact each.1.bind ((inductionHypothesis each.2).map (result value :: ·))

theorem counted {write : α → List Token} {read : Reader β} {result : α → β} {values : List α}
    (each : ∀ value ∈ values, Reads read (write value) (result value)) :
    Reads read.counted (writeCounted write values) (values.map result) :=
  (Reads.nat values.length).bind (Reads.many each)

end Reads

end CutPlan.Lib
