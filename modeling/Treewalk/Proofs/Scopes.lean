import Treewalk.Store

/-! How the operations on a store change its scopes: each adds a scope or changes one binding, and
none changes the link from a scope that is there already to the scope around it. -/

namespace Treewalk.Store

variable {s s₁ s₂ : Store} {e : ScopeId}

/-! ### Scopes after one operation -/

@[simp] theorem size_bind (s : Store) (b : ScopeId) (x : Name) (v : Value) :
    (s.bind b x v).scopes.size = s.scopes.size := by
  simp [bind]

@[simp] theorem size_alloc (s : Store) (sc : Scope) :
    (s.alloc sc).2.scopes.size = s.scopes.size + 1 := by
  simp [alloc]

theorem scope_of_size_le (h : s.scopes.size ≤ e) : s.scope e = {} := by
  rw [scope, Array.getElem?_eq_none h, Option.getD_none]

theorem parent_of_size_le (h : s.scopes.size ≤ e) : s.parent e = none := by
  rw [parent, scope_of_size_le h]

theorem local?_of_size_le (h : s.scopes.size ≤ e) (x : Name) : s.local? e x = none := by
  rw [local?, scope_of_size_le h]
  rfl

theorem scope_alloc (s : Store) (sc : Scope) (e : ScopeId) :
    (s.alloc sc).2.scope e = if e = s.scopes.size then sc else s.scope e := by
  simp only [scope, alloc, Array.getElem?_push]
  split <;> rfl

theorem scope_empty (e : ScopeId) : ({} : Store).scope e = {} := scope_of_size_le (Nat.zero_le e)

theorem scope_global (s : Store) (e : ScopeId) : s.global.2.scope e = s.scope e := by
  rw [global, scope_alloc]
  split
  next h => rw [h, scope_of_size_le (Nat.le_refl _)]
  next => rfl

theorem local?_alloc_child (s : Store) (p e : ScopeId) (x : Name) :
    (s.child p).2.local? e x = s.local? e x := by
  simp only [local?, child, scope_alloc]
  split
  next h => rw [h, scope_of_size_le (Nat.le_refl _)]; rfl
  next => rfl

theorem parent_child (s : Store) (p e : ScopeId) :
    (s.child p).2.parent e = if e = s.scopes.size then some p else s.parent e := by
  simp only [parent, child, scope_alloc]
  split <;> rfl

theorem local?_bind (s : Store) (b e : ScopeId) (x y : Name) (v : Value) :
    (s.bind b x v).local? e y =
      if e = b ∧ b < s.scopes.size ∧ y = x then some v else s.local? e y := by
  simp only [local?, scope_bind]
  by_cases h : e = b ∧ b < s.scopes.size
  · rw [if_pos h, Scope.get?_bind]
    simp [h]
  · rw [if_neg h, if_neg (fun h' => h ⟨h'.1, h'.2.1⟩)]

theorem outer?_eq_some {p : ScopeId} {h : p < e} (hp : s.parent e = some p) :
    s.outer? e = some ⟨p, h⟩ := by
  unfold outer?
  rw [hp]
  simp [h]

/-! ### Growth -/

/-- The scopes of `s₁` are scopes of `s₂` with the same scopes around them. -/
structure Grows (s₁ s₂ : Store) : Prop where
  size : s₁.scopes.size ≤ s₂.scopes.size
  parent : ∀ e, e < s₁.scopes.size → s₂.parent e = s₁.parent e

namespace Grows

theorem refl (s : Store) : s.Grows s := ⟨Nat.le_refl _, fun _ _ => rfl⟩

theorem trans {s₃ : Store} (h : s₁.Grows s₂) (h' : s₂.Grows s₃) : s₁.Grows s₃ where
  size := Nat.le_trans h.size h'.size
  parent e he := (h'.parent e (Nat.lt_of_lt_of_le he h.size)).trans (h.parent e he)

theorem bind (s : Store) (b : ScopeId) (x : Name) (v : Value) : s.Grows (s.bind b x v) :=
  ⟨Nat.le_of_eq (size_bind s b x v).symm, fun e _ => parent_bind s b e x v⟩

theorem child (s : Store) (p : ScopeId) : s.Grows (s.child p).2 where
  size := by
    rw [Store.child, size_alloc]
    omega
  parent e he := by
    rw [parent_child, if_neg (Nat.ne_of_lt he)]

theorem newClosure (s : Store) (params : List Name) (body : NodeId) (env : ScopeId) (code : Code) :
    s.Grows (s.newClosure params body env code).2 :=
  ⟨Nat.le_refl _, fun _ _ => rfl⟩

theorem declare (s : Store) (e : ScopeId) (x : Name) (v : Value) :
    s.Grows (s.declare e x v).2 := by
  unfold Store.declare
  split
  · exact refl s
  · exact bind s e x v

theorem update (s : Store) (e : ScopeId) (x : Name) (v : Value) : s.Grows (s.update e x v).2 := by
  unfold Store.update
  split
  · exact bind s _ x v
  · exact bind s _ x v

theorem outer? (h : s₁.Grows s₂) (he : e < s₁.scopes.size) : s₂.outer? e = s₁.outer? e := by
  unfold Store.outer?
  rw [h.parent e he]

/-- Growth keeps the way outwards from a scope. -/
theorem chain (h : s₁.Grows s₂) (he : e < s₁.scopes.size) : s₂.chain e = s₁.chain e := by
  induction e using Nat.strongRecOn with
  | _ e ih =>
    rw [Store.chain, Store.chain, h.outer? he]
    cases s₁.outer? e with
    | some p => simp only [ih p.1 p.2 (Nat.lt_trans p.2 he)]
    | none => rfl

end Grows

/-- The scope `e` is there, and `env` lists it and the scopes around it from the inside out. -/
structure Around (s : Store) (e : ScopeId) (env : List ScopeId) : Prop where
  lt : e < s.scopes.size
  chain : s.chain e = env

namespace Around

variable {env : List ScopeId}

theorem grows (h : s₁.Around e env) (hg : s₁.Grows s₂) : s₂.Around e env :=
  ⟨Nat.lt_of_lt_of_le h.lt hg.size, (hg.chain h.lt).trans h.chain⟩

theorem child (h : s.Around e env) :
    (s.child e).2.Around s.scopes.size (s.scopes.size :: env) := by
  refine ⟨by rw [Store.child, size_alloc]; exact Nat.lt_succ_self _, ?_⟩
  have hparent : (s.child e).2.parent s.scopes.size = some e := by
    rw [parent_child, if_pos rfl]
  rw [Store.chain, outer?_eq_some hparent (h := h.lt)]
  simp only
  rw [(Grows.child s e).chain h.lt, h.chain]

theorem head (h : s.Around e env) : ∃ outer, env = e :: outer := by
  rw [← h.chain, Store.chain]
  split
  · exact ⟨_, rfl⟩
  · exact ⟨_, rfl⟩

end Around

end Treewalk.Store
