import Treewalk.Arena
import Treewalk.Interner

/-! Builders: one operation for each construct of the language. An operation interns the names that
the construct mentions and stores its node, so a program is built from its leaves upwards. -/

namespace Treewalk

/-- An arena under construction and the interner for its names. -/
structure Builder where
  names : Interner := .initial
  arena : Arena := {}
deriving Inhabited

/-- A step of construction. What it stored before a refusal stays stored. -/
abbrev Build := EStateM Refusal Builder

namespace Builder

/-- Runs a step on the interner. -/
@[inline] def onNames {α : Type} (m : EStateM Refusal Interner α) : Build α := fun ⟨names, arena⟩ =>
  match m names with
  | .ok a names => .ok a ⟨names, arena⟩
  | .error r names => .error r ⟨names, arena⟩

/-- Runs a step on the arena. -/
@[inline] def onArena {α : Type} (m : EStateM Refusal Arena α) : Build α := fun ⟨names, arena⟩ =>
  match m arena with
  | .ok a arena => .ok a ⟨names, arena⟩
  | .error r arena => .error r ⟨names, arena⟩

def intern (s : String) : Build Name := onNames (Interner.intern s)

def alloc (node : Node) : Build NodeId := onArena (Arena.allocNode node)

def int (value : Int64) : Build NodeId := alloc (.int value)

def bool (value : Bool) : Build NodeId := alloc (.bool value)

def null : Build NodeId := alloc .null

def ident (name : String) : Build NodeId := do
  let x ← intern name
  alloc (.ident x)

def print (operand : NodeId) : Build NodeId := alloc (.print operand)

def binary (op : Operator) (left right : NodeId) : Build NodeId := alloc (.binary op left right)

/-- A binary node from its token; nothing is stored for a token that is no operator. -/
def binarySymbol (token : String) (left right : NodeId) : Build (Option NodeId) :=
  match Operator.ofSymbol? token with
  | some op => some <$> binary op left right
  | none => pure none

def ifElse (test yes no : NodeId) : Build NodeId := alloc (.cond test yes no)

def ifThen (test yes : NodeId) : Build NodeId := ifElse test yes .absent

def whileLoop (test body : NodeId) : Build NodeId := alloc (.loop test body)

def seqPair (first second : NodeId) : Build NodeId := alloc (.seq first second)

/-- Puts statements in front of a built tail, the last of them first: the list is given in reverse
order. -/
def seqBefore (second : NodeId) : List NodeId → Build NodeId
  | [] => pure second
  | first :: earlier => do seqBefore (← seqPair first second) earlier

/-- A list of statements as a chain of pairs nested to the right. Absent entries are skipped, a
single statement stands for itself, and an empty list is absent. -/
def seq (statements : List (Option NodeId)) : Build (Option NodeId) :=
  match (statements.filterMap id).reverse with
  | [] => pure none
  | last :: earlier => some <$> seqBefore last earlier

/-- The statements of a whole program. -/
def program (statements : List (Option NodeId)) : Build (Option NodeId) := seq statements

/-- A block that shares the scope around it. -/
def block (statements : List (Option NodeId)) : Build (Option NodeId) := seq statements

/-- A block with a scope of its own. -/
def scopedBlock (statements : List (Option NodeId)) : Build (Option NodeId) := do
  match ← seq statements with
  | some body => some <$> alloc (.block body)
  | none => pure none

def declare (name : String) (init : NodeId) : Build NodeId := do
  let x ← intern name
  alloc (.declare x init)

def assign (name : String) (value : NodeId) : Build NodeId := do
  let x ← intern name
  alloc (.assign x value)

def function (params : List String) (body : NodeId) : Build NodeId := do
  let names ← params.mapM intern
  let span ← onArena (Arena.allocParameters names)
  alloc (.function span body)

def call (callee : NodeId) (args : List NodeId) : Build NodeId := do
  let span ← onArena (Arena.allocArguments args)
  alloc (.call callee span)

end Builder

end Treewalk
