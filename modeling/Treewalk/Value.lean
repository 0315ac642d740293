import Treewalk.Arena

/-! Values: what expressions evaluate to. -/

namespace Treewalk

/-- The number of a scope in the store. -/
abbrev ScopeId := Nat

/-- A finished arena. Its number tells it apart from other arenas with the same contents. -/
structure Code where
  id : Nat
  arena : Arena
deriving DecidableEq, Inhabited

/-- Whether two handles refer to one arena. -/
def Code.same (a b : Code) : Bool := a.id == b.id

/-- A function literal together with the scope in which it was evaluated and the arena that holds
its body. Its number is its identity. -/
structure Closure where
  id : Nat
  params : List Name
  body : NodeId
  env : ScopeId
  code : Code
deriving DecidableEq, Inhabited

namespace Closure

/-- The number of parameters. -/
def arity (c : Closure) : Nat := c.params.length

/-- The form in which diagnostics show a closure. -/
def debug (c : Closure) : String :=
  "Closure \x7b params: [" ++ ", ".intercalate (c.params.map Name.debug) ++ "], body: " ++
    c.body.debug ++ ", .. \x7d"

end Closure

inductive Value where
  | int (value : Int64)
  | bool (value : Bool)
  | null
  | closure (value : Closure)
deriving DecidableEq, Inhabited

namespace Value

/-- The name of a value's type in error messages. -/
def typeName : Value → String
  | int _ => "int"
  | bool _ => "bool"
  | null => "null"
  | closure _ => "function"

def isNull : Value → Bool
  | null => true
  | _ => false

def int? : Value → Option Int64
  | int n => some n
  | _ => none

def bool? : Value → Option Bool
  | bool b => some b
  | _ => none

def closure? : Value → Option Closure
  | closure c => some c
  | _ => none

/-- Equality in the language: values of different types differ, and closures are equal only to
themselves. -/
def same : Value → Value → Bool
  | int a, int b => a == b
  | bool a, bool b => a == b
  | null, null => true
  | closure a, closure b => a.id == b.id
  | _, _ => false

/-- The text of a truth value. -/
def boolText (b : Bool) : String := if b then "true" else "false"

/-- The text that `print` writes. -/
def display : Value → String
  | int n => toString n.toInt
  | bool b => boolText b
  | null => "null"
  | closure c => "<closure/" ++ toString c.arity ++ ">"

/-- The form in which diagnostics show a value. -/
def debug : Value → String
  | int n => "Int(" ++ toString n.toInt ++ ")"
  | bool b => "Bool(" ++ boolText b ++ ")"
  | null => "Null"
  | closure c => c.debug

end Value

end Treewalk
