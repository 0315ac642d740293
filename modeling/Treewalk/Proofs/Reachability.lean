import Treewalk.Proofs.Ending
import Treewalk.Proofs.Scopes

/-! What can be reached in a store: from a scope the scope around it and the closures that are the
values of its variables, and from a closure the scope it captured. In a store that came about by the
operations on stores, scopes are older than the scopes inside them, and whatever is reached from
something that is there is there itself. -/

namespace Treewalk

/-- What has an identity in a store. -/
inductive Object where
  | scope (e : ScopeId)
  | closure (c : Closure)

/-- The closure that a value is, if it is one. -/
def Value.Is (v : Value) (o : Object) : Prop := ∃ c, v = .closure c ∧ o = .closure c

/-- The closures among some values. -/
def Value.among (vs : List Value) (o : Object) : Prop := ∃ v ∈ vs, v.Is o

/-- The roots, and the closure that the computation gave if it gave one. -/
def Outcome.rootsWith (roots : Object → Prop) (r : Outcome Value) (o : Object) : Prop :=
  roots o ∨ ∃ v t, r = .ok v t ∧ v.Is o

namespace Store

/-- What is reached from the objects with `roots`. -/
inductive Reaches (s : Store) (roots : Object → Prop) : Object → Prop where
  | root {o : Object} (h : roots o) : Reaches s roots o
  | parent {e p : ScopeId} (h : Reaches s roots (.scope e)) (link : s.parent e = some p) :
      Reaches s roots (.scope p)
  | bound {e : ScopeId} {x : Name} {c : Closure} (h : Reaches s roots (.scope e))
      (link : s.local? e x = some (.closure c)) : Reaches s roots (.closure c)
  | captured {c : Closure} (h : Reaches s roots (.closure c)) : Reaches s roots (.scope c.env)

/-- The object was allocated. -/
def Has (s : Store) : Object → Prop
  | .scope e => e < s.scopes.size
  | .closure c => c.id < s.nextClosure

/-- A closure that is the value was allocated, and so was the scope that it captured. -/
def HasValue (s : Store) (v : Value) : Prop :=
  ∀ c, v = .closure c → s.Has (.closure c) ∧ s.Has (.scope c.env)

/-- Every scope is younger than the scope around it. -/
def Ordered (s : Store) : Prop := ∀ e p, s.parent e = some p → p < e

/-- Links lead outwards, and to objects that are there. -/
structure WellFormed (s : Store) : Prop where
  ordered : s.Ordered
  bound : ∀ e x v, s.local? e x = some v → s.HasValue v

/-! ### Ways outwards -/

section Ordered

variable {s : Store}

theorem outer?_eq_none {e : ScopeId} (h : s.parent e = none) : s.outer? e = none := by
  unfold outer?
  rw [h]

/-- A name is resolved in a scope itself or else in the scope around it. -/
theorem Ordered.resolve_eq (h : s.Ordered) (e : ScopeId) (x : Name) :
    s.resolve e x = (s.local? e x).or ((s.parent e).bind (s.resolve · x)) := by
  rw [resolve]
  cases s.local? e x with
  | some v => rfl
  | none =>
    cases hp : s.parent e with
    | some p =>
      rw [outer?_eq_some hp (h := h e p hp)]
      rfl
    | none =>
      rw [outer?_eq_none hp]
      rfl

theorem Ordered.binder?_eq (h : s.Ordered) (e : ScopeId) (x : Name) :
    s.binder? x e = if s.bindsLocally e x then some e else (s.parent e).bind (s.binder? x) := by
  rw [binder?]
  split
  · rfl
  · cases hp : s.parent e with
    | some p =>
      rw [outer?_eq_some hp (h := h e p hp)]
      rfl
    | none =>
      rw [outer?_eq_none hp]
      rfl

theorem Ordered.root_eq (h : s.Ordered) (e : ScopeId) :
    s.root e = ((s.parent e).map s.root).getD e := by
  rw [root]
  cases hp : s.parent e with
  | some p =>
    rw [outer?_eq_some hp (h := h e p hp)]
    rfl
  | none =>
    rw [outer?_eq_none hp]
    rfl

theorem Ordered.chain_eq (h : s.Ordered) (e : ScopeId) :
    s.chain e = e :: ((s.parent e).map s.chain).getD [] := by
  rw [chain]
  cases hp : s.parent e with
  | some p =>
    rw [outer?_eq_some hp (h := h e p hp)]
    rfl
  | none =>
    rw [outer?_eq_none hp]
    rfl

theorem Ordered.bind (h : s.Ordered) (b : ScopeId) (x : Name) (v : Value) :
    (s.bind b x v).Ordered := by
  intro e p hp
  rw [parent_bind] at hp
  exact h e p hp

theorem Ordered.child (h : s.Ordered) {e : ScopeId} (there : e < s.scopes.size) :
    (s.child e).2.Ordered := by
  intro e' p hp
  rw [parent_child] at hp
  split at hp
  next heq =>
    obtain rfl := Option.some.inj hp
    rw [heq]
    exact there
  next => exact h e' p hp

end Ordered

/-- The store `s'` comes after `s`, and of the scopes of `s` only those in `region` have changed. -/
structure Changes (region : ScopeId → Prop) (s s' : Store) : Prop where
  size : s.scopes.size ≤ s'.scopes.size
  closures : s.nextClosure ≤ s'.nextClosure
  spared : ∀ e, e < s.scopes.size → ¬ region e → s'.scope e = s.scope e

namespace Changes

variable {region : ScopeId → Prop} {s s' s'' : Store}

theorem refl (s : Store) : s.Changes region s :=
  ⟨Nat.le_refl _, Nat.le_refl _, fun _ _ _ => rfl⟩

theorem trans (h : s.Changes region s') (h' : s'.Changes region s'') : s.Changes region s'' where
  size := Nat.le_trans h.size h'.size
  closures := Nat.le_trans h.closures h'.closures
  spared e there outside :=
    (h'.spared e (Nat.lt_of_lt_of_le there h.size) outside).trans (h.spared e there outside)

theorem bind {b : ScopeId} (inside : region b) (s : Store) (x : Name) (v : Value) :
    s.Changes region (s.bind b x v) where
  size := Nat.le_of_eq (size_bind s b x v).symm
  closures := Nat.le_refl _
  spared e _ outside := by
    rw [scope_bind, if_neg]
    rintro ⟨rfl, _⟩
    exact outside inside

theorem child (s : Store) (e : ScopeId) : s.Changes region (s.child e).2 where
  size := by
    rw [Store.child, size_alloc]
    omega
  closures := Nat.le_refl _
  spared e' there _ := by
    rw [Store.child, scope_alloc, if_neg (Nat.ne_of_lt there)]

theorem newClosure (s : Store) (params : List Name) (body : NodeId) (env : ScopeId) (code : Code) :
    s.Changes region (s.newClosure params body env code).2 :=
  ⟨Nat.le_refl _, Nat.le_succ _, fun _ _ _ => rfl⟩

end Changes

end Store

end Treewalk
