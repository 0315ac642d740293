import Treewalk.Eval

/-! The current scope as a part of the state. The evaluator hands the current scope down to the
parts of a node. Here it is kept where every part can see and move it: a block moves to a new scope
and moves back when its body has ended, with a value or without. Both evaluators do the same, and
the one with a movable scope always ends in the scope where it began. -/

namespace Treewalk

/-- A state and the current scope. -/
structure Focus where
  env : ScopeId
  state : State

/-- An evaluation that can move the current scope. -/
abbrev FocusM := EStateM Halt Focus

/-- An outcome in a given scope. -/
def Focus.outcome {α : Type} (e : ScopeId) :
    EStateM.Result Halt State α → EStateM.Result Halt Focus α
  | .ok a s => .ok a ⟨e, s⟩
  | .error cause s => .error cause ⟨e, s⟩

namespace FocusM

variable {α β : Type}

/-- Evaluates in the current scope, without moving it. -/
def here (m : ScopeId → EvalM α) : FocusM α := fun f => Focus.outcome f.env (m f.env f.state)

/-- Moves to a new scope inside the current one, and back again however the evaluation there
ends. -/
def inChild (m : FocusM α) : FocusM α := fun ⟨env, store, sink⟩ =>
  let (scope, store) := store.child env
  match m ⟨scope, store, sink⟩ with
  | .ok a ⟨_, s⟩ => .ok a ⟨env, s⟩
  | .error cause ⟨_, s⟩ => .error cause ⟨env, s⟩

/-- An evaluation with a current scope of its own. -/
def apart (m : FocusM α) (env : ScopeId) : EvalM α := fun s =>
  match m ⟨env, s⟩ with
  | .ok a f => .ok a f.state
  | .error cause f => .error cause f.state

/-- Steps that do not move the current scope make up a computation that does not move it. -/
theorem bind_eq_here {m : FocusM α} {m' : ScopeId → EvalM α} {f : α → FocusM β}
    {f' : α → ScopeId → EvalM β} (hm : m = here m') (hf : ∀ a, f a = here (f' a)) :
    m >>= f = here fun e => m' e >>= fun a => f' a e := by
  subst hm
  funext ⟨e, s⟩
  simp only [Bind.bind, EStateM.bind, here, hf]
  cases m' e s <;> rfl

/-- A block leaves the current scope where it was, whatever its body does. -/
theorem inChild_eq_here {m : FocusM α} {m' : ScopeId → EvalM α} (hm : m = here m') :
    inChild m = here fun e => EvalM.onStore (·.child e) >>= m' := by
  subst hm
  funext ⟨e, store, sink⟩
  simp only [inChild, here, Bind.bind, EStateM.bind, EvalM.onStore]
  cases m' (store.child e).1 ⟨(store.child e).2, sink⟩ <;> rfl

theorem apart_here (m : ScopeId → EvalM α) (e : ScopeId) : apart (here m) e = m e := by
  funext s
  simp only [apart, here]
  cases m e s <;> rfl

theorem mapM_eq_here {m : α → FocusM β} {m' : α → ScopeId → EvalM β} (hm : ∀ x, m x = here (m' x))
    (xs : List α) : xs.mapM m = here fun e => xs.mapM fun x => m' x e := by
  induction xs with
  | nil => rfl
  | cons x xs ih =>
    simp only [List.mapM_cons]
    exact bind_eq_here (hm x) fun v => bind_eq_here ih fun vs => rfl

end FocusM

namespace Interpreter

open FocusM

/-- Runs the body as long as the condition holds, at most `n` times. -/
def walkLoop (test body : FocusM Value) : Nat → FocusM Value
  | 0 => throw .outOfFuel
  | n + 1 => do
    match ← test with
    | .bool true => do
      let _ ← body
      walkLoop test body n
    | .bool false => pure .null
    | other => here fun _ => EvalM.fail (.typeMismatch "while condition" "bool" other.typeName)

/-- Evaluates one node in the current scope. A called closure has a current scope of its own. -/
def walkNode (walk : Interpreter → NodeId → FocusM Value) (n : Nat) (it : Interpreter) :
    Node → FocusM Value
  | .int i => pure (.int i)
  | .bool b => pure (.bool b)
  | .null => pure .null
  | .ident x => here fun e => lookup { it with env := e } x
  | .print e => do
    let v ← walk it e
    here fun _ => do
      EvalM.writeLine v.display
      pure v
  | .binary op l r => do
    let l ← walk it l
    let r ← walk it r
    here fun _ => EvalM.ofExcept (op.apply l r)
  | .cond c t e => do
    match ← walk it c with
    | .bool true => walk it t
    | .bool false => walk it e
    | other => here fun _ => EvalM.fail (.typeMismatch "if condition" "bool" other.typeName)
  | .loop c b => walkLoop (walk it c) (walk it b) n
  | .seq a b => do
    let _ ← walk it a
    walk it b
  | .block e => inChild (walk it e)
  | .declare x e => do
    let v ← walk it e
    here fun e => do
      it.declareIn e x v
      lookup { it with env := e } x
  | .assign x e => do
    let v ← walk it e
    here fun e => do
      let _ ← EvalM.onStore (·.update e x v)
      lookup { it with env := e } x
  | .function params body => here fun e => do
    let params ← EvalM.ofLookup (it.code.arena.parameters? params)
    let c ← EvalM.onStore (·.newClosure params body e it.code)
    pure (.closure c)
  | .call f args => do
    match ← walk it f with
    | .closure c => do
      let args ← here fun _ => EvalM.ofLookup (it.code.arena.arguments? args)
      let args ← args.mapM (walk it)
      here fun _ => apply (fun it id => apart (walk it id) it.env) it c args
    | other => here fun _ => EvalM.fail (.notCallable other.typeName)

/-- Evaluates with evaluations nested at most `n` deep, in the current scope. -/
def walkWith : Nat → Interpreter → NodeId → FocusM Value
  | 0, _, _ => throw .outOfFuel
  | n + 1, it, id =>
    if id.isPresent then do
      let node ← here fun _ => EvalM.ofLookup (it.code.arena.node? id)
      walkNode (walkWith n) n it node
    else pure .null

theorem declareParams_env (it : Interpreter) (e scope : ScopeId) (xs : List Name)
    (vs : List Value) :
    declareParams { it with env := e } scope xs vs = it.declareParams scope xs vs := by
  induction xs generalizing vs with
  | nil => rfl
  | cons x xs ih =>
    cases vs with
    | nil => rfl
    | cons v vs =>
      simp only [declareParams, ih]
      rfl

/-- A call takes nothing from the current scope of its caller. -/
theorem apply_env (ev : Interpreter → NodeId → EvalM Value) (it : Interpreter) (e : ScopeId)
    (c : Closure) (args : List Value) :
    apply ev { it with env := e } c args = apply ev it c args := by
  simp only [apply, declareParams_env]
  rfl

theorem walkLoop_eq_here {test body : FocusM Value} {test' body' : ScopeId → EvalM Value}
    (htest : test = here test') (hbody : body = here body') (n : Nat) :
    walkLoop test body n = here fun e => iterate (test' e) (body' e) n := by
  induction n with
  | zero => rfl
  | succ n ih =>
    simp only [walkLoop, iterate]
    refine bind_eq_here htest fun v => ?_
    cases v with
    | bool b =>
      cases b with
      | true => exact bind_eq_here hbody fun _ => ih
      | false => rfl
    | _ => rfl

theorem walkNode_eq_here {walk : Interpreter → NodeId → FocusM Value}
    {ev : Interpreter → NodeId → EvalM Value}
    (h : ∀ it id, walk it id = here fun e => ev { it with env := e } id) (n : Nat)
    (it : Interpreter) (node : Node) :
    it.walkNode walk n node = here fun e => evalNode ev n { it with env := e } node := by
  cases node <;> simp only [walkNode, evalNode]
  case print | declare | assign => exact bind_eq_here (h _ _) fun _ => rfl
  case binary => exact bind_eq_here (h _ _) fun _ => bind_eq_here (h _ _) fun _ => rfl
  case seq => exact bind_eq_here (h _ _) fun _ => h _ _
  case loop => exact walkLoop_eq_here (h _ _) (h _ _) n
  case block => exact inChild_eq_here (h _ _)
  case cond =>
    refine bind_eq_here (h _ _) fun v => ?_
    cases v with
    | bool b => cases b <;> exact h _ _
    | _ => rfl
  case call f span =>
    refine bind_eq_here (h _ _) fun v => ?_
    cases v with
    | closure c =>
      refine bind_eq_here rfl fun ids => bind_eq_here (mapM_eq_here (h it) ids) fun args => ?_
      -- the callee starts in its own scope, wherever the caller is
      simp only [h, apart_here, apply_env]
    | _ => rfl
  all_goals rfl

/-- The evaluator that moves the current scope does what the other one does, and is back in the
scope where it began when it ends. -/
theorem walkWith_eq_here (n : Nat) (it : Interpreter) (id : NodeId) :
    it.walkWith n id = here fun e => evalWith n { it with env := e } id := by
  induction n generalizing it id with
  | zero => rfl
  | succ n ih =>
    simp only [walkWith, evalWith_succ, evalStep]
    split
    · exact bind_eq_here rfl fun node => walkNode_eq_here ih n it node
    · rfl

end Interpreter

end Treewalk
