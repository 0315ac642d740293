import Treewalk.Sink
import Treewalk.Store
import Treewalk.EvalError

/-! Interpreters and the effects of evaluation: a store to read and change, a sink to print to, and
three ways to stop early. -/

namespace Treewalk

/-- What evaluation changes. -/
structure State where
  store : Store := {}
  sink : Sink := .buffer #[]
deriving DecidableEq, Inhabited

/-- Why evaluation stops without a value: an error of the program, a number or span outside the
tables of its arena, or the end of the fuel. -/
inductive Halt where
  | error (cause : EvalError)
  | fault
  | outOfFuel
deriving DecidableEq, Inhabited

/-- An evaluation. The changes made before it stops remain. -/
abbrev EvalM := EStateM Halt State

namespace EvalM

def fail {α : Type} (cause : EvalError) : EvalM α := throw (.error cause)

/-- Runs an operation on the store. -/
@[inline] def onStore {α : Type} (f : Store → α × Store) : EvalM α := fun ⟨store, sink⟩ =>
  let (a, store) := f store
  .ok a ⟨store, sink⟩

/-- Reads the store. -/
@[inline] def readStore {α : Type} (f : Store → α) : EvalM α := fun s => .ok (f s.store) s

/-- Prints one line. -/
def writeLine (line : String) : EvalM Unit := fun ⟨store, sink⟩ =>
  .ok () ⟨store, sink.writeLine line⟩

/-- The result of a computation that may fail but has no effects. -/
def ofExcept {α : Type} : Except EvalError α → EvalM α
  | .ok a => pure a
  | .error cause => fail cause

/-- What a look-up in an arena found. -/
def ofLookup {α : Type} : Option α → EvalM α
  | some a => pure a
  | none => throw .fault

end EvalM

/-- The number of nested calls allowed by default. -/
def defaultLimit : Nat := 10000

/-- Where and how expressions are evaluated: the names for messages, the arena that holds the
expressions, the current scope, the greatest number of nested calls if there is one, and the number
of calls around the present evaluation. -/
structure Interpreter where
  names : Interner
  code : Code
  env : ScopeId
  limit : Option Nat := some defaultLimit
  depth : Nat := 0
deriving Inhabited

/-- The interpreter for the body of a called closure. -/
def Interpreter.enter (it : Interpreter) (c : Closure) (scope : ScopeId) : Interpreter :=
  { it with code := c.code, env := scope, depth := it.depth + 1 }

end Treewalk
