import Treewalk.Arithmetic
import Treewalk.Interpreter

/-! Evaluation goes from left to right and stops at the first error. One step of it is written over
an evaluator for the parts of a node; tying the knot with fuel bounds how deep evaluations nest and
how often a loop runs. -/

namespace Treewalk.Interpreter

/-- The value of a name; an unbound name reads as null. -/
def lookup (it : Interpreter) (x : Name) : EvalM Value :=
  EvalM.readStore fun s => (s.resolve it.env x).getD .null

/-- Declares a name in a given scope. -/
def declareIn (it : Interpreter) (scope : ScopeId) (x : Name) (v : Value) : EvalM Unit := do
  match ← EvalM.onStore (·.declare scope x v) with
  | .declared => pure ()
  | .duplicate => EvalM.fail (.duplicateDeclaration (it.names.lookup x))

/-- Declares parameters with their arguments, from left to right. -/
def declareParams (it : Interpreter) (scope : ScopeId) : List Name → List Value → EvalM Unit
  | x :: xs, v :: vs => do
    it.declareIn scope x v
    it.declareParams scope xs vs
  | _, _ => pure ()

/-- Fails if the calls around the present evaluation have used up the limit. -/
def checkLimit (it : Interpreter) : EvalM Unit :=
  match it.limit with
  | some limit => if limit ≤ it.depth then EvalM.fail (.stackOverflow limit) else pure ()
  | none => pure ()

/-- Applies a closure: its body is evaluated in a new scope inside the captured one, which holds the
arguments. -/
@[inline] def apply (ev : Interpreter → NodeId → EvalM Value) (it : Interpreter) (c : Closure)
    (args : List Value) : EvalM Value := do
  if args.length = c.arity then
    it.checkLimit
    let scope ← EvalM.onStore (·.child c.env)
    it.declareParams scope c.params args
    ev (it.enter c scope) c.body
  else EvalM.fail (.arityMismatch c.arity args.length)

/-- Runs the body as long as the condition holds, at most `n` times. -/
def iterate (test body : EvalM Value) : Nat → EvalM Value
  | 0 => throw .outOfFuel
  | n + 1 => do
    match ← test with
    | .bool true => do
      let _ ← body
      iterate test body n
    | .bool false => pure .null
    | other => EvalM.fail (.typeMismatch "while condition" "bool" other.typeName)

/-- Evaluates one node, given an evaluator for its parts and a bound for its iterations. -/
@[inline] def evalNode (ev : Interpreter → NodeId → EvalM Value) (n : Nat) (it : Interpreter) :
    Node → EvalM Value
  | .int i => pure (.int i)
  | .bool b => pure (.bool b)
  | .null => pure .null
  | .ident x => it.lookup x
  | .print e => do
    let v ← ev it e
    EvalM.writeLine v.display
    pure v
  | .binary op l r => do
    let l ← ev it l
    let r ← ev it r
    EvalM.ofExcept (op.apply l r)
  | .cond c t e => do
    match ← ev it c with
    | .bool true => ev it t
    | .bool false => ev it e
    | other => EvalM.fail (.typeMismatch "if condition" "bool" other.typeName)
  | .loop c b => iterate (ev it c) (ev it b) n
  | .seq a b => do
    let _ ← ev it a
    ev it b
  | .block e => do
    let scope ← EvalM.onStore (·.child it.env)
    ev { it with env := scope } e
  | .declare x e => do
    let v ← ev it e
    it.declareIn it.env x v
    it.lookup x
  | .assign x e => do
    let v ← ev it e
    let _ ← EvalM.onStore (·.update it.env x v)
    it.lookup x
  | .function params body => do
    let params ← EvalM.ofLookup (it.code.arena.parameters? params)
    let c ← EvalM.onStore (·.newClosure params body it.env it.code)
    pure (.closure c)
  | .call f args => do
    match ← ev it f with
    | .closure c => do
      let args ← EvalM.ofLookup (it.code.arena.arguments? args)
      let args ← args.mapM (ev it)
      apply ev it c args
    | other => EvalM.fail (.notCallable other.typeName)

/-- Evaluates the node with a given number; an absent node is null. -/
@[inline] def evalStep (ev : Interpreter → NodeId → EvalM Value) (n : Nat) (it : Interpreter)
    (id : NodeId) : EvalM Value :=
  if id.isPresent then do
    let node ← EvalM.ofLookup (it.code.arena.node? id)
    evalNode ev n it node
  else pure .null

/-- Evaluates with evaluations nested at most `n` deep. -/
def evalWith : Nat → Interpreter → NodeId → EvalM Value
  | 0, _, _ => throw .outOfFuel
  | n + 1, it, id => evalStep (evalWith n) n it id

theorem evalWith_succ (n : Nat) (it : Interpreter) (id : NodeId) :
    evalWith (n + 1) it id = evalStep (evalWith n) n it id := rfl

/-- Calls a value, with evaluations nested at most `n` deep. -/
def callWith (n : Nat) (it : Interpreter) (f : Value) (args : List Value) : EvalM Value :=
  match f with
  | .closure c => apply (evalWith n) it c args
  | other => EvalM.fail (.notCallable other.typeName)

/-- More fuel than a computation can use up. -/
def ample : Nat := 4611686018427387904

/-- Evaluates an expression in the current scope. -/
def eval (it : Interpreter) (id : NodeId) : EvalM Value := it.evalWith ample id

/-- Evaluates a program; the empty program is null. -/
def run (it : Interpreter) (root : Option NodeId) : EvalM Value := it.eval (.ofOption root)

/-- Calls a value with evaluated arguments. -/
def call (it : Interpreter) (f : Value) (args : List Value) : EvalM Value :=
  it.callWith ample f args

end Treewalk.Interpreter
