import Treewalk.Node
import Treewalk.Refusal

/-! Arenas: the tables that hold the nodes of programs, their argument lists and their parameter
lists. Tables only grow, so numbers and spans keep their meaning. -/

namespace Treewalk

/-- The nodes, all argument lists end to end, and all parameter lists end to end. -/
structure Arena where
  nodes : Array Node := #[]
  arguments : Array NodeId := #[]
  parameters : Array Name := #[]
deriving DecidableEq, Inhabited

/-- The entries of a span, if the span lies inside the table. -/
def Span.slice? {α : Type} (s : Span) (table : Array α) : Option (List α) :=
  if s.stop ≤ table.size then some (table.extract s.start.toNat s.stop).toList else none

/-- Stores a list at the end of a table whose size has to fit in 32 bits. A list whose length does
not fit in 16 bits is refused after it was stored, so its entries stay in the table. -/
def Span.append {α : Type} (tableFull tooLong : Nat → Refusal) (entries : List α) :
    EStateM Refusal (Array α) Span := fun table =>
  let start := table.size
  if start ≤ maxIndex then
    if entries.length ≤ maxListLength then
      .ok ⟨.ofNat start, .ofNat entries.length⟩ (table ++ entries)
    else .error (tooLong entries.length) (table ++ entries)
  else .error (tableFull start) table

theorem Span.append_of_le {α : Type} {tableFull tooLong : Nat → Refusal} {entries : List α}
    {table : Array α} (room : table.size ≤ maxIndex) (short : entries.length ≤ maxListLength) :
    Span.append tableFull tooLong entries table =
      .ok ⟨.ofNat table.size, .ofNat entries.length⟩ (table ++ entries) := by
  simp [Span.append, room, short]

namespace Arena

/-- The number of nodes. -/
def size (a : Arena) : Nat := a.nodes.size

def isEmpty (a : Arena) : Bool := a.nodes.isEmpty

/-- The node with a given number. -/
def node? (a : Arena) (id : NodeId) : Option Node := a.nodes[id.index]?

/-- The argument list at a span. -/
def arguments? (a : Arena) (s : Span) : Option (List NodeId) := s.slice? a.arguments

/-- The parameter list at a span. -/
def parameters? (a : Arena) (s : Span) : Option (List Name) := s.slice? a.parameters

/-- Stores a node under the next number, which has to fit in 32 bits. -/
def allocNode (node : Node) : EStateM Refusal Arena NodeId := fun a =>
  if a.nodes.size ≤ maxIndex then
    .ok ⟨.ofNat a.nodes.size⟩ { a with nodes := a.nodes.push node }
  else .error (.nodes a.nodes.size) a

/-- Stores an argument list. -/
def allocArguments (ids : List NodeId) : EStateM Refusal Arena Span :=
  fun ⟨nodes, arguments, parameters⟩ =>
    match Span.append .argumentEntries .arguments ids arguments with
    | .ok span arguments => .ok span ⟨nodes, arguments, parameters⟩
    | .error r arguments => .error r ⟨nodes, arguments, parameters⟩

/-- Stores a parameter list. -/
def allocParameters (names : List Name) : EStateM Refusal Arena Span :=
  fun ⟨nodes, arguments, parameters⟩ =>
    match Span.append .parameterEntries .parameters names parameters with
    | .ok span parameters => .ok span ⟨nodes, arguments, parameters⟩
    | .error r parameters => .error r ⟨nodes, arguments, parameters⟩

theorem allocNode_of_le {a : Arena} (node : Node) (room : a.size ≤ maxIndex) :
    allocNode node a = .ok ⟨.ofNat a.size⟩ { a with nodes := a.nodes.push node } :=
  if_pos room

end Arena

end Treewalk
