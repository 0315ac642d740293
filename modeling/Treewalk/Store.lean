import Treewalk.Interner
import Treewalk.Value

/-! The store: all scopes of a run, each linked to the scope around it. A scope is reached by its
number, so whoever holds the number sees every later change. Reading an unbound name finds nothing,
updating one creates it in the outermost scope, and declaring a name twice in one scope fails. -/

namespace Treewalk

/-- The bindings of one scope and the link to the scope around it. -/
structure Scope where
  bindings : List (Name × Value) := []
  parent : Option ScopeId := none
deriving DecidableEq, Inhabited

namespace Scope

/-- The value of a name in this very scope. -/
def get? (s : Scope) (x : Name) : Option Value := s.bindings.lookup x

/-- Whether this very scope binds a name. -/
def binds (s : Scope) (x : Name) : Bool := (s.get? x).isSome

/-- Replaces the first binding of a name, or adds one at the end. -/
def put (x : Name) (v : Value) : List (Name × Value) → List (Name × Value)
  | [] => [(x, v)]
  | (y, w) :: rest => if x = y then (y, v) :: rest else (y, w) :: put x v rest

/-- Binds a name, which changes the binding it may have. -/
def bind (s : Scope) (x : Name) (v : Value) : Scope := { s with bindings := put x v s.bindings }

/-- The number of bindings. -/
def size (s : Scope) : Nat := s.bindings.length

theorem lookup_put (x y : Name) (v : Value) (bs : List (Name × Value)) :
    (put x v bs).lookup y = if y = x then some v else bs.lookup y := by
  induction bs with
  | nil =>
    by_cases h : y = x
    · simp [put, h]
    · simp [put, List.lookup_cons, h, beq_eq_false_iff_ne.2 h]
  | cons b bs ih =>
    obtain ⟨z, w⟩ := b
    by_cases hx : x = z
    · subst hx
      by_cases hy : y = x
      · simp [put, hy]
      · simp [put, List.lookup_cons, hy, beq_eq_false_iff_ne.2 hy]
    · by_cases hy : y = z
      · subst hy
        simp [put, hx, Ne.symm hx]
      · simp [put, List.lookup_cons, hx, beq_eq_false_iff_ne.2 hy, ih]

theorem get?_bind (s : Scope) (x y : Name) (v : Value) :
    (s.bind x v).get? y = if y = x then some v else s.get? y := lookup_put x y v s.bindings

@[simp] theorem parent_bind (s : Scope) (x : Name) (v : Value) : (s.bind x v).parent = s.parent :=
  rfl

end Scope

/-- The scopes allocated so far and the numbers for the next closure and the next finished arena. -/
structure Store where
  scopes : Array Scope := #[]
  nextClosure : Nat := 0
  nextCode : Nat := 0
deriving DecidableEq, Inhabited

/-- Where an update wrote. -/
inductive UpdateOutcome where
  | rebound
  | createdGlobal
deriving DecidableEq

/-- Whether a declaration took effect. -/
inductive DeclareOutcome where
  | declared
  | duplicate
deriving DecidableEq

namespace Store

/-- The scope with a given number; a number that was not handed out has an empty one. -/
def scope (s : Store) (e : ScopeId) : Scope := s.scopes[e]?.getD {}

/-- The scope around a scope. -/
def parent (s : Store) (e : ScopeId) : Option ScopeId := (s.scope e).parent

/-- Whether no scope lies around a scope. -/
def isGlobal (s : Store) (e : ScopeId) : Bool := (s.parent e).isNone

/-- The number of bindings in a scope itself. -/
def localSize (s : Store) (e : ScopeId) : Nat := (s.scope e).size

/-- The value of a name in a scope itself. -/
def local? (s : Store) (e : ScopeId) (x : Name) : Option Value := (s.scope e).get? x

/-- Whether a scope itself binds a name. -/
def bindsLocally (s : Store) (e : ScopeId) (x : Name) : Bool := (s.scope e).binds x

/-- Adds a scope. -/
def alloc (s : Store) (sc : Scope) : ScopeId × Store :=
  (s.scopes.size, { s with scopes := s.scopes.push sc })

/-- A new scope with nothing around it. -/
def global (s : Store) : ScopeId × Store := s.alloc {}

/-- A new scope inside a given one. -/
def child (s : Store) (e : ScopeId) : ScopeId × Store := s.alloc { parent := some e }

/-- The next scope on the way outwards. Scopes are allocated from the outside in, so the numbers on
the way decrease. -/
def outer? (s : Store) (e : ScopeId) : Option { p : ScopeId // p < e } :=
  match s.parent e with
  | some p => if h : p < e then some ⟨p, h⟩ else none
  | none => none

/-- A scope and all scopes around it, from the inside out. -/
def chain (s : Store) (e : ScopeId) : List ScopeId :=
  match s.outer? e with
  | some ⟨p, _⟩ => e :: s.chain p
  | none => [e]
termination_by e

/-- The number of scopes from one to its outermost, added to a count. -/
def depthFrom (s : Store) (count : Nat) (e : ScopeId) : Nat :=
  match s.outer? e with
  | some ⟨p, _⟩ => s.depthFrom (count + 1) p
  | none => count + 1
termination_by e

/-- The number of scopes from one to its outermost, both included. -/
def depth (s : Store) (e : ScopeId) : Nat := s.depthFrom 0 e

/-- The outermost scope around a scope. -/
def root (s : Store) (e : ScopeId) : ScopeId :=
  match s.outer? e with
  | some ⟨p, _⟩ => s.root p
  | none => e
termination_by e

/-- The nearest scope that binds a name. -/
def binder? (s : Store) (x : Name) (e : ScopeId) : Option ScopeId :=
  if s.bindsLocally e x then some e
  else
    match s.outer? e with
    | some ⟨p, _⟩ => s.binder? x p
    | none => none
termination_by e

/-- The value of a name in the nearest scope that binds it. -/
def resolve (s : Store) (e : ScopeId) (x : Name) : Option Value :=
  match s.local? e x with
  | some v => some v
  | none =>
    match s.outer? e with
    | some ⟨p, _⟩ => s.resolve p x
    | none => none
termination_by e

/-- Binds a name in a scope itself. -/
def bind (s : Store) (e : ScopeId) (x : Name) (v : Value) : Store :=
  { s with scopes := s.scopes.modify e (·.bind x v) }

/-- Binds a name again in the nearest scope that binds it, or else in the outermost scope. -/
def update (s : Store) (e : ScopeId) (x : Name) (v : Value) : UpdateOutcome × Store :=
  match s.binder? x e with
  | some b => (.rebound, s.bind b x v)
  | none => (.createdGlobal, s.bind (s.root e) x v)

/-- Binds a name in a scope that does not bind it itself. -/
def declare (s : Store) (e : ScopeId) (x : Name) (v : Value) : DeclareOutcome × Store :=
  if s.bindsLocally e x then (.duplicate, s) else (.declared, s.bind e x v)

/-- The names of an interner that a scope itself binds, in the order of interning. -/
def bindings (s : Store) (e : ScopeId) (names : Interner) : List (String × Value) :=
  (names.toList.zipIdx).filterMap fun (text, i) =>
    (s.local? e ⟨.ofNat i⟩).map fun v => (text, v)

/-- Finishes an arena. -/
def freeze (s : Store) (a : Arena) : Code × Store :=
  (⟨s.nextCode, a⟩, { s with nextCode := s.nextCode + 1 })

/-- A closure that differs from all earlier ones. -/
def newClosure (s : Store) (params : List Name) (body : NodeId) (env : ScopeId) (code : Code) :
    Closure × Store :=
  (⟨s.nextClosure, params, body, env, code⟩, { s with nextClosure := s.nextClosure + 1 })

theorem scope_bind (s : Store) (b e : ScopeId) (x : Name) (v : Value) :
    (s.bind b x v).scope e =
      if e = b ∧ b < s.scopes.size then (s.scope e).bind x v else s.scope e := by
  simp only [scope, bind, Array.getElem?_modify]
  by_cases h : b = e
  · subst h
    by_cases hb : b < s.scopes.size <;> simp [hb]
  · simp [h, Ne.symm h]

@[simp] theorem parent_bind (s : Store) (b e : ScopeId) (x : Name) (v : Value) :
    (s.bind b x v).parent e = s.parent e := by
  simp only [parent, scope_bind]
  split <;> simp

@[simp] theorem outer?_bind (s : Store) (b e : ScopeId) (x : Name) (v : Value) :
    (s.bind b x v).outer? e = s.outer? e := by
  simp [outer?]

theorem depthFrom_eq (s : Store) (count : Nat) (e : ScopeId) :
    s.depthFrom count e = count + (s.chain e).length := by
  induction e using Nat.strongRecOn generalizing count with
  | _ e ih =>
    rw [depthFrom, chain]
    match s.outer? e with
    | some ⟨p, h⟩ => simp [ih p h]; omega
    | none => simp

theorem depth_eq_length_chain (s : Store) (e : ScopeId) : s.depth e = (s.chain e).length := by
  simp [depth, depthFrom_eq]

theorem getLast?_chain (s : Store) (e : ScopeId) : (s.chain e).getLast? = some (s.root e) := by
  induction e using Nat.strongRecOn with
  | _ e ih =>
    rw [root, chain]
    match s.outer? e with
    | some ⟨p, h⟩ => simp [List.getLast?_cons, ih p h]
    | none => simp

theorem binder?_eq_find? (s : Store) (x : Name) (e : ScopeId) :
    s.binder? x e = (s.chain e).find? (s.bindsLocally · x) := by
  induction e using Nat.strongRecOn with
  | _ e ih =>
    rw [binder?, chain]
    match s.outer? e with
    | some ⟨p, h⟩ => by_cases hb : s.bindsLocally e x <;> simp [hb, ih p h]
    | none => by_cases hb : s.bindsLocally e x <;> simp [hb]

theorem resolve_eq_findSome? (s : Store) (e : ScopeId) (x : Name) :
    s.resolve e x = (s.chain e).findSome? (s.local? · x) := by
  induction e using Nat.strongRecOn with
  | _ e ih =>
    rw [resolve, chain]
    match s.outer? e with
    | some ⟨p, h⟩ => cases hv : s.local? e x <;> simp [hv, ih p h]
    | none => cases hv : s.local? e x <;> simp [hv]

end Store

end Treewalk
