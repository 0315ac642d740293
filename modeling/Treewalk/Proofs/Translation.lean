import Mathlib.Data.List.Forall2
import Treewalk.Proofs.Invariants
import Treewalk.Proofs.Relations

/-! Translations between two runs that need not use the same interner, the same arena or the same
numbers for scopes and closures. A translation pairs what plays the same part in both. Stores that
agree on what is paired still do so after the same operation on both, and the operation leaves all
variables alone that are not paired. -/

namespace Treewalk

/-- The name that a node itself mentions. -/
@[simp] def Node.name? : Node → Option Name
  | .ident x | .declare x _ | .assign x _ => some x
  | _ => none

/-- Nodes that differ at most in the name they mention. -/
inductive Node.Alike (name : Name → Name → Prop) : Node → Node → Prop where
  | ident {x₁ x₂ : Name} (h : name x₁ x₂) : Alike name (.ident x₁) (.ident x₂)
  | declare {x₁ x₂ : Name} {e : NodeId} (h : name x₁ x₂) :
      Alike name (.declare x₁ e) (.declare x₂ e)
  | assign {x₁ x₂ : Name} {e : NodeId} (h : name x₁ x₂) :
      Alike name (.assign x₁ e) (.assign x₂ e)
  | nameless {node : Node} (h : node.name? = none) : Alike name node node

theorem Node.Alike.exists_of_name? {name : Name → Name → Prop} {node node' : Node} {x : Name}
    (h : node.Alike name node') (hx : node.name? = some x) : ∃ y, name x y := by
  cases h with
  | ident h | declare h | assign h =>
    cases hx
    exact ⟨_, h⟩
  | nameless h => cases h.symm.trans hx

/-- Pairs of names, of scopes and of identities of closures, and the expressions that two arenas
share. No two pairs have one side only in common. Paired names have the same text, and paired scopes
are in the same order. A shared expression has the same shape in both arenas, with paired names, and
so have its parts. -/
structure Translation where
  names₁ : Interner
  names₂ : Interner
  name : Name → Name → Prop
  expr : Code → Code → NodeId → Prop
  scope : ScopeId → ScopeId → Prop
  closure : Nat → Nat → Prop
  name_iff {x₁ x₂ y₁ y₂} : name x₁ x₂ → name y₁ y₂ → (x₁ = y₁ ↔ x₂ = y₂)
  text {x₁ x₂} : name x₁ x₂ → names₁.lookup x₁ = names₂.lookup x₂
  scope_lt {e₁ e₂ b₁ b₂} : scope e₁ e₂ → scope b₁ b₂ → (e₁ < b₁ ↔ e₂ < b₂)
  id_iff {i₁ i₂ j₁ j₂} : closure i₁ i₂ → closure j₁ j₂ → (i₁ = j₁ ↔ i₂ = j₂)
  node {code₁ code₂ id} : expr code₁ code₂ id → id.isPresent = true →
    ∃ node₁ node₂, code₁.arena.Holds id node₁ ∧ code₂.arena.Holds id node₂ ∧
      node₁.Alike name node₂
  child {code₁ code₂ id node j} : expr code₁ code₂ id → code₁.arena.Holds id node →
    j ∈ code₁.arena.children node → expr code₁ code₂ j
  arguments {code₁ code₂ id f span} : expr code₁ code₂ id → code₁.arena.Holds id (.call f span) →
    ∃ ids, code₁.arena.arguments? span = some ids ∧ code₂.arena.arguments? span = some ids
  parameters {code₁ code₂ id span body} : expr code₁ code₂ id →
    code₁.arena.Holds id (.function span body) →
    ∃ xs₁ xs₂, code₁.arena.parameters? span = some xs₁ ∧ code₂.arena.parameters? span = some xs₂ ∧
      List.Forall₂ name xs₁ xs₂

/-- The store `t` comes after `s`, and of the variables only those in `region` have changed. -/
structure Store.Alters (region : ScopeId → Name → Prop) (s t : Store) : Prop extends s.Grows t where
  spared : ∀ e x, ¬ region e x → t.local? e x = s.local? e x

namespace Store.Alters

variable {region : ScopeId → Name → Prop} {s t u : Store}

theorem refl (s : Store) : s.Alters region s := ⟨.refl s, fun _ _ _ => rfl⟩

theorem trans (h : s.Alters region t) (h' : t.Alters region u) : s.Alters region u where
  toGrows := h.toGrows.trans h'.toGrows
  spared e x outside := (h'.spared e x outside).trans (h.spared e x outside)

theorem mono {wider : ScopeId → Name → Prop} (h : s.Alters region t)
    (more : ∀ e x, region e x → wider e x) : s.Alters wider t where
  toGrows := h.toGrows
  spared e x outside := h.spared e x fun inside => outside (more e x inside)

theorem bind {b : ScopeId} {x : Name} (inside : region b x) (s : Store) (v : Value) :
    s.Alters region (s.bind b x v) where
  toGrows := .bind s b x v
  spared e y outside := by
    rw [local?_bind, if_neg]
    rintro ⟨rfl, _, rfl⟩
    exact outside inside

theorem child (s : Store) (e : ScopeId) : s.Alters region (s.child e).2 :=
  ⟨.child s e, fun e' x _ => local?_alloc_child s e e' x⟩

theorem newClosure (s : Store) (params : List Name) (body : NodeId) (env : ScopeId) (code : Code) :
    s.Alters region (s.newClosure params body env code).2 :=
  ⟨.newClosure s params body env code, fun _ _ _ => rfl⟩

end Store.Alters

namespace Translation

/-- Closures that play the same part. -/
structure SameClosure (T : Translation) (c₁ c₂ : Closure) : Prop where
  id : T.closure c₁.id c₂.id
  params : List.Forall₂ T.name c₁.params c₂.params
  body : c₁.body = c₂.body
  expr : T.expr c₁.code c₂.code c₁.body
  env : T.scope c₁.env c₂.env

/-- Values that are equal, or closures that play the same part. -/
abbrev SameValue (T : Translation) : Value → Value → Prop := Value.Alike T.SameClosure

/-- Paired scopes have paired scopes around them and corresponding values for paired names, and the
scopes and closures that come next are paired in their order. -/
structure Holds (T : Translation) (s₁ s₂ : Store) : Prop where
  parent : ∀ e₁ e₂, T.scope e₁ e₂ → Option.Rel T.scope (s₁.parent e₁) (s₂.parent e₂)
  vars : ∀ e₁ e₂ x₁ x₂, T.scope e₁ e₂ → T.name x₁ x₂ →
    Option.Rel T.SameValue (s₁.local? e₁ x₁) (s₂.local? e₂ x₂)
  nextScope : ∀ k, T.scope (s₁.scopes.size + k) (s₂.scopes.size + k)
  nextClosure : ∀ k, T.closure (s₁.nextClosure + k) (s₂.nextClosure + k)

/-- Both stores have grown, and of their variables only paired names in paired scopes have
changed. -/
structure Later (T : Translation) (s₁ s₂ t₁ t₂ : Store) : Prop where
  left : s₁.Alters (fun e x => (∃ e', T.scope e e') ∧ ∃ x', T.name x x') t₁
  right : s₂.Alters (fun e x => (∃ e', T.scope e' e) ∧ ∃ x', T.name x' x) t₂

variable {T : Translation} {s₁ s₂ t₁ t₂ : Store} {v₁ v₂ w₁ w₂ : Value}

namespace Later

theorem refl (s₁ s₂ : Store) : T.Later s₁ s₂ s₁ s₂ := ⟨.refl s₁, .refl s₂⟩

theorem trans {u₁ u₂ : Store} (h : T.Later s₁ s₂ t₁ t₂) (h' : T.Later t₁ t₂ u₁ u₂) :
    T.Later s₁ s₂ u₁ u₂ :=
  ⟨h.left.trans h'.left, h.right.trans h'.right⟩

theorem bind {b₁ b₂ : ScopeId} {x₁ x₂ : Name} (hb : T.scope b₁ b₂) (hx : T.name x₁ x₂) :
    T.Later s₁ s₂ (s₁.bind b₁ x₁ v₁) (s₂.bind b₂ x₂ v₂) :=
  ⟨.bind ⟨⟨b₂, hb⟩, x₂, hx⟩ s₁ v₁, .bind ⟨⟨b₁, hb⟩, x₁, hx⟩ s₂ v₂⟩

theorem child (e₁ e₂ : ScopeId) : T.Later s₁ s₂ (s₁.child e₁).2 (s₂.child e₂).2 :=
  ⟨.child s₁ e₁, .child s₂ e₂⟩

theorem newClosure (xs₁ xs₂ : List Name) (body : NodeId) (e₁ e₂ : ScopeId) (code₁ code₂ : Code) :
    T.Later s₁ s₂ (s₁.newClosure xs₁ body e₁ code₁).2 (s₂.newClosure xs₂ body e₂ code₂).2 :=
  ⟨.newClosure s₁ xs₁ body e₁ code₁, .newClosure s₂ xs₂ body e₂ code₂⟩

end Later

theorem scope_iff {e₁ e₂ b₁ b₂ : ScopeId} (he : T.scope e₁ e₂) (hb : T.scope b₁ b₂) :
    e₁ = b₁ ↔ e₂ = b₂ := by
  rw [Nat.le_antisymm_iff, Nat.le_antisymm_iff, ← Nat.not_lt, ← Nat.not_lt, ← Nat.not_lt,
    ← Nat.not_lt, T.scope_lt he hb, T.scope_lt hb he]

/-! ### Values -/

namespace SameValue

theorem display (h : T.SameValue v₁ v₂) : v₁.display = v₂.display := by
  cases h with
  | closure h =>
    rw [Value.display, Value.display, Closure.arity, Closure.arity, h.params.length_eq]
  | _ => rfl

theorem same (h : T.SameValue v₁ v₂) (h' : T.SameValue w₁ w₂) : v₁.same w₁ = v₂.same w₂ := by
  cases h with
  | @closure c₁ c₂ h =>
    cases h' with
    | @closure d₁ d₂ h' =>
      show (c₁.id == d₁.id) = (c₂.id == d₂.id)
      rw [Bool.eq_iff_iff, beq_iff_eq, beq_iff_eq]
      exact T.id_iff h.id h'.id
    | _ => rfl
  | _ => cases h' <;> rfl

/-- Operators do not tell corresponding operands apart. -/
theorem apply_eq (op : Operator) (h : T.SameValue v₁ v₂) (h' : T.SameValue w₁ w₂) :
    op.apply v₁ w₁ = op.apply v₂ w₂ := by
  unfold Operator.apply
  split
  · rw [h.same h']
  · cases h with
    | int => cases h' <;> rfl
    | _ => rfl

end SameValue

/-! ### Names -/

namespace Holds

variable {e₁ e₂ b₁ b₂ : ScopeId} {x₁ x₂ : Name}

/-- The ways outwards from paired scopes go through paired scopes. -/
theorem chain (h : T.Holds s₁ s₂) (he : T.scope e₁ e₂) :
    List.Forall₂ T.scope (s₁.chain e₁) (s₂.chain e₂) := by
  induction e₁ using Nat.strongRecOn generalizing e₂ with
  | _ e₁ ih =>
    have hparent := h.parent e₁ e₂ he
    rw [Store.chain, Store.chain, Store.outer?, Store.outer?]
    generalize s₁.parent e₁ = o₁, s₂.parent e₂ = o₂ at hparent
    cases hparent with
    | none => exact .cons he .nil
    | @some p₁ p₂ hp =>
      have hlt := T.scope_lt hp he
      by_cases hdown : p₁ < e₁
      · simp only [hdown, hlt.mp hdown, ↓reduceDIte]
        exact .cons he (ih p₁ hdown hp)
      · simp only [hdown, mt hlt.mpr hdown, ↓reduceDIte]
        exact .cons he .nil

theorem bindsLocally_eq (h : T.Holds s₁ s₂) (he : T.scope e₁ e₂) (hx : T.name x₁ x₂) :
    s₁.bindsLocally e₁ x₁ = s₂.bindsLocally e₂ x₂ :=
  (h.vars e₁ e₂ x₁ x₂ he hx).isSome_eq

theorem resolve (h : T.Holds s₁ s₂) (he : T.scope e₁ e₂) (hx : T.name x₁ x₂) :
    Option.Rel T.SameValue (s₁.resolve e₁ x₁) (s₂.resolve e₂ x₂) := by
  rw [Store.resolve_eq_findSome?, Store.resolve_eq_findSome?]
  have hchain := h.chain he
  generalize s₁.chain e₁ = es₁, s₂.chain e₂ = es₂ at hchain
  induction hchain with
  | nil => exact .none
  | cons hb _ ih =>
    rw [List.findSome?_cons, List.findSome?_cons]
    have hvars := h.vars _ _ x₁ x₂ hb hx
    generalize s₁.local? _ x₁ = o₁, s₂.local? _ x₂ = o₂ at hvars
    cases hvars with
    | some hv => exact .some hv
    | none => exact ih

theorem binder? (h : T.Holds s₁ s₂) (he : T.scope e₁ e₂) (hx : T.name x₁ x₂) :
    Option.Rel T.scope (s₁.binder? x₁ e₁) (s₂.binder? x₂ e₂) := by
  rw [Store.binder?_eq_find?, Store.binder?_eq_find?]
  have hchain := h.chain he
  generalize s₁.chain e₁ = es₁, s₂.chain e₂ = es₂ at hchain
  induction hchain with
  | nil => exact .none
  | @cons d₁ d₂ _ _ hd _ ih =>
    rw [List.find?_cons, List.find?_cons, h.bindsLocally_eq hd hx]
    cases s₂.bindsLocally d₂ x₂ with
    | true => exact .some hd
    | false => exact ih

theorem root (h : T.Holds s₁ s₂) (he : T.scope e₁ e₂) : T.scope (s₁.root e₁) (s₂.root e₂) := by
  have hchain := h.chain he
  have hlast₁ := Store.getLast?_chain s₁ e₁
  have hlast₂ := Store.getLast?_chain s₂ e₂
  rw [List.getLast?_eq_head?_reverse] at hlast₁ hlast₂
  have hrev := List.rel_reverse hchain
  generalize (s₁.chain e₁).reverse = es₁, (s₂.chain e₂).reverse = es₂ at hrev hlast₁ hlast₂
  cases hrev with
  | nil => cases hlast₁
  | cons hd _ =>
    obtain rfl := Option.some.inj hlast₁
    obtain rfl := Option.some.inj hlast₂
    exact hd

theorem depth_eq (h : T.Holds s₁ s₂) (he : T.scope e₁ e₂) : s₁.depth e₁ = s₂.depth e₂ := by
  rw [Store.depth_eq_length_chain, Store.depth_eq_length_chain, (h.chain he).length_eq]

/-! ### Operations on both stores -/

theorem bind (h : T.Holds s₁ s₂) (hb : T.scope b₁ b₂) (hx : T.name x₁ x₂)
    (hv : T.SameValue v₁ v₂) : T.Holds (s₁.bind b₁ x₁ v₁) (s₂.bind b₂ x₂ v₂) where
  parent e₁ e₂ he := by
    rw [Store.parent_bind, Store.parent_bind]
    exact h.parent e₁ e₂ he
  vars e₁ e₂ y₁ y₂ he hy := by
    have hscope := scope_iff he hb
    have hname := T.name_iff hy hx
    have hthere := T.scope_lt hb (h.nextScope 0)
    rw [Store.local?_bind, Store.local?_bind]
    by_cases hset : e₁ = b₁ ∧ b₁ < s₁.scopes.size ∧ y₁ = x₁
    · rw [if_pos hset, if_pos ⟨hscope.mp hset.1, hthere.mp hset.2.1, hname.mp hset.2.2⟩]
      exact .some hv
    · rw [if_neg hset, if_neg]
      · exact h.vars e₁ e₂ y₁ y₂ he hy
      · rintro ⟨he', hb', hy'⟩
        exact hset ⟨hscope.mpr he', hthere.mpr hb', hname.mpr hy'⟩
  nextScope := by
    rw [Store.size_bind, Store.size_bind]
    exact h.nextScope
  nextClosure := h.nextClosure

theorem update (h : T.Holds s₁ s₂) (he : T.scope e₁ e₂) (hx : T.name x₁ x₂)
    (hv : T.SameValue v₁ v₂) :
    T.Holds (s₁.update e₁ x₁ v₁).2 (s₂.update e₂ x₂ v₂).2 ∧
      T.Later s₁ s₂ (s₁.update e₁ x₁ v₁).2 (s₂.update e₂ x₂ v₂).2 := by
  have hbinder := h.binder? he hx
  have hroot := h.root he
  unfold Store.update
  generalize s₁.binder? x₁ e₁ = o₁, s₂.binder? x₂ e₂ = o₂ at hbinder
  cases hbinder with
  | some hb => exact ⟨h.bind hb hx hv, .bind hb hx⟩
  | none => exact ⟨h.bind hroot hx hv, .bind hroot hx⟩

theorem child (h : T.Holds s₁ s₂) (hp : T.scope b₁ b₂) :
    T.Holds (s₁.child b₁).2 (s₂.child b₂).2 where
  parent e₁ e₂ he := by
    have hnew : e₁ = s₁.scopes.size ↔ e₂ = s₂.scopes.size := scope_iff he (h.nextScope 0)
    rw [Store.parent_child, Store.parent_child]
    by_cases hlast : e₁ = s₁.scopes.size
    · rw [if_pos hlast, if_pos (hnew.mp hlast)]
      exact .some hp
    · rw [if_neg hlast, if_neg (mt hnew.mpr hlast)]
      exact h.parent e₁ e₂ he
  vars e₁ e₂ x₁ x₂ he hx := by
    rw [Store.local?_alloc_child, Store.local?_alloc_child]
    exact h.vars e₁ e₂ x₁ x₂ he hx
  nextScope k := by
    rw [Store.child, Store.child, Store.size_alloc, Store.size_alloc, Nat.add_assoc, Nat.add_assoc]
    exact h.nextScope (1 + k)
  nextClosure := h.nextClosure

theorem newClosure (h : T.Holds s₁ s₂) (xs₁ xs₂ : List Name) (body : NodeId) (e₁ e₂ : ScopeId)
    (code₁ code₂ : Code) :
    T.Holds (s₁.newClosure xs₁ body e₁ code₁).2 (s₂.newClosure xs₂ body e₂ code₂).2 where
  parent := h.parent
  vars := h.vars
  nextScope := h.nextScope
  nextClosure k := by
    have hnext := h.nextClosure (1 + k)
    rwa [← Nat.add_assoc, ← Nat.add_assoc] at hnext

end Holds

end Translation

end Treewalk
