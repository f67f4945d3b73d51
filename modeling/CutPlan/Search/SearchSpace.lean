import CutPlan.Lib.MachineInt
import CutPlan.Search.Task

/-! # Search nodes

The per-state records of the search space and the operations of `SearchNode` on them.  `g` lives in
a signed bit-field of 30 bits and `real_g` in an `int`, so every stored value went through a
conversion of the exact sum.
-/

namespace CutPlan.Search

open CutPlan.Lib

inductive NodeStatus where
  | new
  | opened
  | closed
  | deadEnd
  deriving DecidableEq, Repr

structure SearchNodeInfo (S O : Type) where
  status : NodeStatus
  g : ℤ
  parentStateId : Option S
  creatingOperator : Option O
  realG : ℤ

namespace SearchNodeInfo

variable {S O : Type}

/-- The record of a state the search has not seen. -/
def unseen : SearchNodeInfo S O :=
  { status := .new, g := -1, parentStateId := none, creatingOperator := none, realG := -1 }

def isNew (info : SearchNodeInfo S O) : Bool := info.status = .new

def isOpen (info : SearchNodeInfo S O) : Bool := info.status = .opened

def isClosed (info : SearchNodeInfo S O) : Bool := info.status = .closed

def isDeadEnd (info : SearchNodeInfo S O) : Bool := info.status = .deadEnd

def openInitial (info : SearchNodeInfo S O) : SearchNodeInfo S O :=
  { info with status := .opened, g := 0, realG := 0, parentStateId := none, creatingOperator := none }

def close (info : SearchNodeInfo S O) : SearchNodeInfo S O := { info with status := .closed }

def markAsDeadEnd (info : SearchNodeInfo S O) : SearchNodeInfo S O := { info with status := .deadEnd }

section Link

variable (task : Task S O) (costType : OperatorCost) (parent : S) (parentInfo : SearchNodeInfo S O)
  (op : O)

/-- The value the member `g` takes below a parent: the sum of the parent's `g` and the adjusted
cost, converted to `int` and cut to the bit-field. -/
def childG : ℤ :=
  toBitField 30 (toInt ((parentInfo.g : ℚ) + task.getAdjustedActionCost costType op))

/-- The value the member `real_g` takes below a parent. -/
def childRealG : ℤ :=
  toInt ((parentInfo.realG : ℚ) + task.cost op)

/-- Like `reopen`, except that it does not change the status. -/
def updateParent (info : SearchNodeInfo S O) : SearchNodeInfo S O :=
  { info with
    g := childG task costType parentInfo op
    realG := childRealG task parentInfo op
    parentStateId := some parent
    creatingOperator := some op }

def openNode (info : SearchNodeInfo S O) : SearchNodeInfo S O :=
  { updateParent task costType parent parentInfo op info with status := .opened }

def reopen (info : SearchNodeInfo S O) : SearchNodeInfo S O :=
  { updateParent task costType parent parentInfo op info with status := .opened }

end Link

end SearchNodeInfo

/-- `search_node_infos`: a record for every state, `unseen` by default. -/
abbrev SearchSpace (S O : Type) := S → SearchNodeInfo S O

end CutPlan.Search
