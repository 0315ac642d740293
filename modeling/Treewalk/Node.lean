import Treewalk.Name
import Treewalk.Operator

/-! Nodes of a program. A node refers to its children by their numbers in the arena that holds them,
and to its arguments or parameters by a stretch of a table there. -/

namespace Treewalk

/-- The number of a node in its arena. The greatest number stands for a child that is not there. -/
structure NodeId where
  raw : UInt32
deriving DecidableEq

namespace NodeId

/-- The number that stands for no node. -/
def absent : NodeId := ⟨4294967295⟩

instance : Inhabited NodeId := ⟨absent⟩

/-- Whether the number stands for a node. -/
def isPresent (id : NodeId) : Bool := id != absent

/-- The number as a table index. -/
def index (id : NodeId) : Nat := id.raw.toNat

/-- The number of an optional node. -/
def ofOption : Option NodeId → NodeId
  | some id => id
  | none => absent

/-- The node that a number stands for, if any. -/
def toOption (id : NodeId) : Option NodeId := if id.isPresent then some id else none

/-- The form in which diagnostics show a number. -/
def debug (id : NodeId) : String :=
  if id.isPresent then "ExprId(" ++ toString id.index ++ ")" else "ExprId::INVALID"

@[simp] theorem isPresent_iff {id : NodeId} : id.isPresent = true ↔ id ≠ absent := by
  simp [isPresent]

@[simp] theorem isPresent_absent : absent.isPresent = false := by decide

@[simp] theorem ofOption_toOption (id : NodeId) : ofOption id.toOption = id := by
  by_cases h : id = absent <;> simp [toOption, ofOption, isPresent, h]

end NodeId

/-- A stretch of a table: `len` entries from `start` on. -/
structure Span where
  start : UInt32
  len : UInt16
deriving DecidableEq

namespace Span

/-- The stretch without entries at the start of a table. -/
def empty : Span := ⟨0, 0⟩

instance : Inhabited Span := ⟨empty⟩

/-- Whether the stretch has no entries. -/
def isEmpty (s : Span) : Bool := s.len == 0

/-- The number of entries. -/
def length (s : Span) : Nat := s.len.toNat

/-- The position after the last entry. -/
def stop (s : Span) : Nat := s.start.toNat + s.len.toNat

end Span

/-- The forms of expression. -/
inductive Node where
  | int (value : Int64)
  | bool (value : Bool)
  | null
  | ident (name : Name)
  | print (operand : NodeId)
  | binary (op : Operator) (left right : NodeId)
  | cond (test yes no : NodeId)
  | loop (test body : NodeId)
  | seq (first second : NodeId)
  | block (body : NodeId)
  | declare (name : Name) (init : NodeId)
  | assign (name : Name) (value : NodeId)
  | function (params : Span) (body : NodeId)
  | call (callee : NodeId) (args : Span)
deriving DecidableEq, Inhabited

end Treewalk
