import Mathlib.Logic.Function.Basic
import Treewalk.EvalError
import Treewalk.Tree
import Treewalk.Value

/-! The meaning of program trees, by rules on the trees themselves. There are no tables, no numbers
for names or nodes and no links between scopes: an environment is the list of the scopes around an
expression, a scope is a map from strings, and a closure holds the strings of its parameters and the
tree of its body. -/

namespace Treewalk

namespace Operator

/-- The tokens of the language and the operators that they stand for. -/
def ofToken? : String → Option Operator
  | "+" => some add
  | "-" => some sub
  | "*" => some mul
  | "/" => some div
  | "%" => some mod
  | "==" => some eq
  | "<" => some lt
  | "<=" => some le
  | ">" => some gt
  | ">=" => some ge
  | _ => none

theorem ofToken?_eq_some_iff {token : String} {op : Operator} :
    ofToken? token = some op ↔ op.symbol = token := by
  constructor
  · intro h
    unfold ofToken? at h
    split at h <;> cases h <;> rfl
  · rintro rfl
    cases op <;> rfl

/-- Every operator is found under its own token and under no other. -/
theorem ofSymbol?_eq_ofToken? (token : String) : ofSymbol? token = ofToken? token :=
  Option.ext fun _ => ofSymbol?_eq_some_iff.trans ofToken?_eq_some_iff.symm

end Operator

/-- A tree without holes. -/
abbrev Term := Tree Empty

namespace Tree

mutual

/-- Whether something is there to evaluate. An unknown operator leaves nothing, and neither does a
list of statements none of which is there. -/
def isPresent : Term → Bool
  | .absent => false
  | .binary token _ _ => (Operator.ofToken? token).isSome
  | .seq ts | .block ts | .scopedBlock ts => anyPresent ts
  | _ => true

/-- Whether some statement of a list is there. -/
def anyPresent : List Term → Bool
  | [] => false
  | t :: ts => t.isPresent || anyPresent ts

end

/-- The part that is evaluated before all others, of the trees that have one. -/
def operand? : Term → Option Term
  | .print e | .declare _ e | .assign _ e => some e
  | .binary token l _ => if (Operator.ofToken? token).isSome then some l else none
  | .cond c _ _ | .loop c _ => some c
  | .pair a _ => some a
  | .call f _ => some f
  | _ => none

end Tree

/-- A closure: `env` lists the scopes around the function literal, the innermost first. -/
structure Lambda where
  id : Nat
  params : List String
  body : Term
  env : List ScopeId

/-- What a tree evaluates to. -/
inductive Datum where
  | int (value : Int64)
  | bool (value : Bool)
  | null
  | lambda (value : Lambda)

namespace Datum

def typeName : Datum → String
  | int _ => "int"
  | bool _ => "bool"
  | null => "null"
  | lambda _ => "function"

def display : Datum → String
  | int n => toString n.toInt
  | bool true => "true"
  | bool false => "false"
  | null => "null"
  | lambda f => "<closure/" ++ toString f.params.length ++ ">"

/-- Closures are equal if they are the same one, other data if they are alike. -/
def same : Datum → Datum → Bool
  | int a, int b => a == b
  | bool a, bool b => a == b
  | null, null => true
  | lambda f, lambda g => f.id == g.id
  | _, _ => false

end Datum

namespace Operator

/-- An operator on integers. Results are taken modulo `2^64`, and division goes toward zero. -/
def onInts (op : Operator) (a b : Int) : Except EvalError Datum :=
  match op with
  | add => .ok (.int (.ofInt (a + b)))
  | sub => .ok (.int (.ofInt (a - b)))
  | mul => .ok (.int (.ofInt (a * b)))
  | div => if b = 0 then .error .divisionByZero else .ok (.int (.ofInt (a.tdiv b)))
  | mod => if b = 0 then .error .moduloByZero else .ok (.int (.ofInt (a.tmod b)))
  | eq => .ok (.bool (a = b))
  | lt => .ok (.bool (a < b))
  | le => .ok (.bool (a ≤ b))
  | gt => .ok (.bool (b < a))
  | ge => .ok (.bool (b ≤ a))

/-- An operator on data: all but equality take two integers. An error mentions the token with which
the operator was written. -/
def onData (op : Operator) (token : String) (l r : Datum) : Except EvalError Datum :=
  let refuse (d : Datum) :=
    .error (.typeMismatch ("operator `" ++ token ++ "`") "int" d.typeName)
  if op = eq then .ok (.bool (l.same r))
  else
    match l, r with
    | .int a, .int b => op.onInts a.toInt b.toInt
    | .int _, r => refuse r
    | l, _ => refuse l

end Operator

/-- What evaluation changes: the variables of each scope, the number of closures made so far, and
the lines printed so far. -/
structure Memory where
  scopes : List (String → Option Datum) := []
  lambdas : Nat := 0
  output : List String := []

namespace Memory

/-- The variables of a scope. -/
def vars (μ : Memory) (e : ScopeId) : String → Option Datum := μ.scopes[e]?.getD fun _ => none

/-- The value of a variable in the nearest scope that has it. -/
def resolve (μ : Memory) (env : List ScopeId) (x : String) : Option Datum :=
  env.findSome? (μ.vars · x)

def set (μ : Memory) (e : ScopeId) (x : String) (d : Datum) : Memory :=
  { μ with scopes := μ.scopes.modify e fun vars => Function.update vars x (some d) }

/-- The scope that an assignment to a variable changes: the nearest one that has the variable, or
else the outermost one. -/
def target? (μ : Memory) (env : List ScopeId) (x : String) : Option ScopeId :=
  (env.find? fun e => (μ.vars e x).isSome).or env.getLast?

def assign (μ : Memory) (env : List ScopeId) (x : String) (d : Datum) : Memory :=
  match μ.target? env x with
  | some e => μ.set e x d
  | none => μ

/-- The number of the next scope. -/
def next (μ : Memory) : ScopeId := μ.scopes.length

/-- Adds a scope without variables. -/
def push (μ : Memory) : Memory := { μ with scopes := μ.scopes ++ [fun _ => none] }

/-- Declares variables of one scope from left to right, up to the first that the scope has
already. -/
def declareAll (e : ScopeId) : List (String × Datum) → Memory → Option String × Memory
  | [], μ => (none, μ)
  | (x, d) :: rest, μ =>
    if (μ.vars e x).isSome then (some x, μ) else declareAll e rest (μ.set e x d)

/-- Counts one more closure. -/
def addLambda (μ : Memory) : Memory := { μ with lambdas := μ.lambdas + 1 }

def print (μ : Memory) (line : String) : Memory := { μ with output := μ.output ++ [line] }

end Memory

/-- What is to be done: a tree is to be evaluated, or a closure is to be called, of whose arguments
some have their values and the others are to be evaluated. -/
inductive Task where
  | tree (t : Term)
  | call (f : Lambda) (values : List Datum) (args : List Term)

/-- `Eval limit depth env task μ w μ'`: with at most `limit` nested calls, `depth` calls around it
and the scopes `env` around it, the task takes the memory from `μ` to `μ'` and ends in `w`. -/
inductive Eval (limit : Option Nat) :
    Nat → List ScopeId → Task → Memory → Except EvalError Datum → Memory → Prop where
  | absent {depth env t μ} (nothing : t.isPresent = false) :
      Eval limit depth env (.tree t) μ (.ok .null) μ
  | int {depth env n μ} : Eval limit depth env (.tree (.int n)) μ (.ok (.int n)) μ
  | bool {depth env b μ} : Eval limit depth env (.tree (.bool b)) μ (.ok (.bool b)) μ
  | null {depth env μ} : Eval limit depth env (.tree .null) μ (.ok .null) μ
  | ident {depth env x μ} :
      Eval limit depth env (.tree (.ident x)) μ (.ok ((μ.resolve env x).getD .null)) μ
  | operandError {depth env t u μ c μ₁} (first : t.operand? = some u)
      (error : Eval limit depth env (.tree u) μ (.error c) μ₁) :
      Eval limit depth env (.tree t) μ (.error c) μ₁
  | print {depth env e μ d μ₁} (value : Eval limit depth env (.tree e) μ (.ok d) μ₁) :
      Eval limit depth env (.tree (.print e)) μ (.ok d) (μ₁.print d.display)
  | binary {depth env token op l r μ a μ₁ b μ₂} (known : Operator.ofToken? token = some op)
      (left : Eval limit depth env (.tree l) μ (.ok a) μ₁)
      (right : Eval limit depth env (.tree r) μ₁ (.ok b) μ₂) :
      Eval limit depth env (.tree (.binary token l r)) μ (op.onData token a b) μ₂
  | binaryError {depth env token op l r μ a μ₁ c μ₂} (known : Operator.ofToken? token = some op)
      (left : Eval limit depth env (.tree l) μ (.ok a) μ₁)
      (right : Eval limit depth env (.tree r) μ₁ (.error c) μ₂) :
      Eval limit depth env (.tree (.binary token l r)) μ (.error c) μ₂
  | condTrue {depth env c t e μ μ₁ w μ₂}
      (test : Eval limit depth env (.tree c) μ (.ok (.bool true)) μ₁)
      (yes : Eval limit depth env (.tree t) μ₁ w μ₂) :
      Eval limit depth env (.tree (.cond c t e)) μ w μ₂
  | condFalse {depth env c t e μ μ₁ w μ₂}
      (test : Eval limit depth env (.tree c) μ (.ok (.bool false)) μ₁)
      (no : Eval limit depth env (.tree e) μ₁ w μ₂) :
      Eval limit depth env (.tree (.cond c t e)) μ w μ₂
  | condType {depth env c t e μ d μ₁}
      (test : Eval limit depth env (.tree c) μ (.ok d) μ₁) (other : ∀ b, d ≠ .bool b) :
      Eval limit depth env (.tree (.cond c t e)) μ
        (.error (.typeMismatch "if condition" "bool" d.typeName)) μ₁
  | loopDone {depth env c b μ μ₁}
      (test : Eval limit depth env (.tree c) μ (.ok (.bool false)) μ₁) :
      Eval limit depth env (.tree (.loop c b)) μ (.ok .null) μ₁
  | loopNext {depth env c b μ μ₁ d μ₂ w μ₃}
      (test : Eval limit depth env (.tree c) μ (.ok (.bool true)) μ₁)
      (body : Eval limit depth env (.tree b) μ₁ (.ok d) μ₂)
      (again : Eval limit depth env (.tree (.loop c b)) μ₂ w μ₃) :
      Eval limit depth env (.tree (.loop c b)) μ w μ₃
  | loopError {depth env c b μ μ₁ e μ₂}
      (test : Eval limit depth env (.tree c) μ (.ok (.bool true)) μ₁)
      (body : Eval limit depth env (.tree b) μ₁ (.error e) μ₂) :
      Eval limit depth env (.tree (.loop c b)) μ (.error e) μ₂
  | loopType {depth env c b μ d μ₁}
      (test : Eval limit depth env (.tree c) μ (.ok d) μ₁) (other : ∀ b, d ≠ .bool b) :
      Eval limit depth env (.tree (.loop c b)) μ
        (.error (.typeMismatch "while condition" "bool" d.typeName)) μ₁
  | pair {depth env a b μ d μ₁ w μ₂} (first : Eval limit depth env (.tree a) μ (.ok d) μ₁)
      (second : Eval limit depth env (.tree b) μ₁ w μ₂) :
      Eval limit depth env (.tree (.pair a b)) μ w μ₂
  | seqSkip {depth env t ts μ w μ₁} (nothing : t.isPresent = false)
      (rest : Eval limit depth env (.tree (.seq ts)) μ w μ₁) :
      Eval limit depth env (.tree (.seq (t :: ts))) μ w μ₁
  | seqLast {depth env t ts μ w μ₁} (here : t.isPresent = true)
      (last : Tree.anyPresent ts = false) (value : Eval limit depth env (.tree t) μ w μ₁) :
      Eval limit depth env (.tree (.seq (t :: ts))) μ w μ₁
  | seqNext {depth env t ts μ d μ₁ w μ₂} (here : t.isPresent = true)
      (more : Tree.anyPresent ts = true) (first : Eval limit depth env (.tree t) μ (.ok d) μ₁)
      (rest : Eval limit depth env (.tree (.seq ts)) μ₁ w μ₂) :
      Eval limit depth env (.tree (.seq (t :: ts))) μ w μ₂
  | seqError {depth env t ts μ c μ₁} (here : t.isPresent = true)
      (more : Tree.anyPresent ts = true) (first : Eval limit depth env (.tree t) μ (.error c) μ₁) :
      Eval limit depth env (.tree (.seq (t :: ts))) μ (.error c) μ₁
  | block {depth env ts μ w μ₁} (body : Eval limit depth env (.tree (.seq ts)) μ w μ₁) :
      Eval limit depth env (.tree (.block ts)) μ w μ₁
  | scopedBlock {depth env ts μ w μ₁} (some : Tree.anyPresent ts = true)
      (body : Eval limit depth (μ.next :: env) (.tree (.seq ts)) μ.push w μ₁) :
      Eval limit depth env (.tree (.scopedBlock ts)) μ w μ₁
  | declare {depth e env x init μ d μ₁}
      (value : Eval limit depth (e :: env) (.tree init) μ (.ok d) μ₁)
      (fresh : μ₁.vars e x = none) :
      Eval limit depth (e :: env) (.tree (.declare x init)) μ
        (.ok (((μ₁.set e x d).resolve (e :: env) x).getD .null)) (μ₁.set e x d)
  | duplicate {depth e env x init μ d μ₁}
      (value : Eval limit depth (e :: env) (.tree init) μ (.ok d) μ₁)
      (taken : (μ₁.vars e x).isSome) :
      Eval limit depth (e :: env) (.tree (.declare x init)) μ (.error (.duplicateDeclaration x)) μ₁
  | assign {depth env x e μ d μ₁} (value : Eval limit depth env (.tree e) μ (.ok d) μ₁) :
      Eval limit depth env (.tree (.assign x e)) μ
        (.ok (((μ₁.assign env x d).resolve env x).getD .null)) (μ₁.assign env x d)
  | function {depth env params body μ} :
      Eval limit depth env (.tree (.function params body)) μ
        (.ok (.lambda ⟨μ.lambdas, params, body, env⟩)) μ.addLambda
  | notCallable {depth env f args μ d μ₁} (callee : Eval limit depth env (.tree f) μ (.ok d) μ₁)
      (other : ∀ g, d ≠ .lambda g) :
      Eval limit depth env (.tree (.call f args)) μ (.error (.notCallable d.typeName)) μ₁
  | call {depth env f args μ g μ₁ w μ₂}
      (callee : Eval limit depth env (.tree f) μ (.ok (.lambda g)) μ₁)
      (rest : Eval limit depth env (.call g [] args) μ₁ w μ₂) :
      Eval limit depth env (.tree (.call f args)) μ w μ₂
  | argument {depth env g values t ts μ d μ₁ w μ₂}
      (value : Eval limit depth env (.tree t) μ (.ok d) μ₁)
      (rest : Eval limit depth env (.call g (values ++ [d]) ts) μ₁ w μ₂) :
      Eval limit depth env (.call g values (t :: ts)) μ w μ₂
  | argumentError {depth env g values t ts μ c μ₁}
      (value : Eval limit depth env (.tree t) μ (.error c) μ₁) :
      Eval limit depth env (.call g values (t :: ts)) μ (.error c) μ₁
  | arity {depth env g values μ} (differ : values.length ≠ g.params.length) :
      Eval limit depth env (.call g values []) μ
        (.error (.arityMismatch g.params.length values.length)) μ
  | overflow {depth env g values μ k} (fits : values.length = g.params.length)
      (bound : limit = some k) (deep : k ≤ depth) :
      Eval limit depth env (.call g values []) μ (.error (.stackOverflow k)) μ
  | parameter {depth env g values μ x μ₁} (fits : values.length = g.params.length)
      (room : ∀ k, limit = some k → depth < k)
      (declared : μ.push.declareAll μ.next (g.params.zip values) = (some x, μ₁)) :
      Eval limit depth env (.call g values []) μ (.error (.duplicateDeclaration x)) μ₁
  | body {depth env g values μ μ₁ w μ₂} (fits : values.length = g.params.length)
      (room : ∀ k, limit = some k → depth < k)
      (declared : μ.push.declareAll μ.next (g.params.zip values) = (none, μ₁))
      (result : Eval limit (depth + 1) (μ.next :: g.env) (.tree g.body) μ₁ w μ₂) :
      Eval limit depth env (.call g values []) μ w μ₂

end Treewalk
