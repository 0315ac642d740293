import Mathlib.Data.List.Forall2
import Treewalk.Arithmetic
import Treewalk.Proofs.Reachability
import Treewalk.Proofs.Relations

/-! Matchings pair the scopes and closures of two stores. Stores that agree on what is paired still
do so after the same operation on both, if the operation refers to objects that are paired and if
the objects that come next are paired too. A store can be matched with itself: then the objects that
are paired are a part of the store which operations on it do not leave. -/

namespace Treewalk

/-- Pairs of scopes and pairs of closures. No two pairs share a scope or an identity on one side
only, and paired closures differ only in their identities and in the scopes they captured, which are
paired. -/
structure Matching where
  scope : ScopeId → ScopeId → Prop
  closure : Closure → Closure → Prop
  scope_iff {e₁ e₂ b₁ b₂} : scope e₁ e₂ → scope b₁ b₂ → (e₁ = b₁ ↔ e₂ = b₂)
  id_iff {c₁ c₂ d₁ d₂} : closure c₁ c₂ → closure d₁ d₂ → (c₁.id = d₁.id ↔ c₂.id = d₂.id)
  params {c₁ c₂} : closure c₁ c₂ → c₁.params = c₂.params
  body {c₁ c₂} : closure c₁ c₂ → c₁.body = c₂.body
  code {c₁ c₂} : closure c₁ c₂ → c₁.code = c₂.code
  env {c₁ c₂} : closure c₁ c₂ → scope c₁.env c₂.env

namespace Matching

/-- Values that are equal, or closures that are paired. -/
inductive SameValue (M : Matching) : Value → Value → Prop where
  | int {n : Int64} : SameValue M (.int n) (.int n)
  | bool {b : Bool} : SameValue M (.bool b) (.bool b)
  | null : SameValue M .null .null
  | closure {c₁ c₂ : Closure} (h : M.closure c₁ c₂) : SameValue M (.closure c₁) (.closure c₂)

/-- Objects that are paired. -/
inductive SameObject (M : Matching) : Object → Object → Prop where
  | scope {e₁ e₂ : ScopeId} (h : M.scope e₁ e₂) : SameObject M (.scope e₁) (.scope e₂)
  | closure {c₁ c₂ : Closure} (h : M.closure c₁ c₂) : SameObject M (.closure c₁) (.closure c₂)

/-- The objects that are paired are there, and paired scopes have paired scopes around them and the
same variables with values that correspond. -/
structure Iso (M : Matching) (s₁ s₂ : Store) : Prop where
  scope_lt : ∀ e₁ e₂, M.scope e₁ e₂ → e₁ < s₁.scopes.size ∧ e₂ < s₂.scopes.size
  closure_lt : ∀ c₁ c₂, M.closure c₁ c₂ → c₁.id < s₁.nextClosure ∧ c₂.id < s₂.nextClosure
  parent : ∀ e₁ e₂, M.scope e₁ e₂ → Option.Rel M.scope (s₁.parent e₁) (s₂.parent e₂)
  vars : ∀ e₁ e₂, M.scope e₁ e₂ → ∀ x, Option.Rel M.SameValue (s₁.local? e₁ x) (s₂.local? e₂ x)

/-- The pairs of `M` are pairs of `M'`. -/
structure Within (M M' : Matching) : Prop where
  scope : ∀ e₁ e₂, M.scope e₁ e₂ → M'.scope e₁ e₂
  closure : ∀ c₁ c₂, M.closure c₁ c₂ → M'.closure c₁ c₂

/-- The pairs of objects that are there. -/
def upTo (M : Matching) (s₁ s₂ : Store) : Matching where
  scope e₁ e₂ := M.scope e₁ e₂ ∧ e₁ < s₁.scopes.size ∧ e₂ < s₂.scopes.size
  closure c₁ c₂ := M.closure c₁ c₂ ∧ (c₁.id < s₁.nextClosure ∧ c₂.id < s₂.nextClosure) ∧
    c₁.env < s₁.scopes.size ∧ c₂.env < s₂.scopes.size
  scope_iff h h' := M.scope_iff h.1 h'.1
  id_iff h h' := M.id_iff h.1 h'.1
  params h := M.params h.1
  body h := M.body h.1
  code h := M.code h.1
  env h := ⟨M.env h.1, h.2.2⟩

/-- The stores agree on the pairs of objects that are there, and the objects that come next are
paired. -/
structure Holds (M : Matching) (s₁ s₂ : Store) : Prop where
  iso : (M.upTo s₁ s₂).Iso s₁ s₂
  ordered₁ : s₁.Ordered
  ordered₂ : s₂.Ordered
  nextScope : ∀ k, M.scope (s₁.scopes.size + k) (s₂.scopes.size + k)
  nextClosure : ∀ k params body code e₁ e₂, M.scope e₁ e₂ →
    M.closure ⟨s₁.nextClosure + k, params, body, e₁, code⟩
      ⟨s₂.nextClosure + k, params, body, e₂, code⟩

/-- Both stores have changed, in scopes that are paired and in new ones. -/
structure Later (M : Matching) (s₁ s₂ t₁ t₂ : Store) : Prop where
  left : s₁.Changes (fun e => ∃ e', M.scope e e') t₁
  right : s₂.Changes (fun e => ∃ e', M.scope e' e) t₂

variable {M M' : Matching} {s₁ s₂ t₁ t₂ : Store} {v₁ v₂ w₁ w₂ : Value}

namespace Later

theorem refl (s₁ s₂ : Store) : M.Later s₁ s₂ s₁ s₂ := ⟨.refl s₁, .refl s₂⟩

theorem trans {u₁ u₂ : Store} (h : M.Later s₁ s₂ t₁ t₂) (h' : M.Later t₁ t₂ u₁ u₂) :
    M.Later s₁ s₂ u₁ u₂ :=
  ⟨h.left.trans h'.left, h.right.trans h'.right⟩

/-- Pairs of objects that are there stay pairs of objects that are there. -/
theorem within (h : M.Later s₁ s₂ t₁ t₂) : (M.upTo s₁ s₂).Within (M.upTo t₁ t₂) where
  scope _ _ he := ⟨he.1, Nat.lt_of_lt_of_le he.2.1 h.left.size,
    Nat.lt_of_lt_of_le he.2.2 h.right.size⟩
  closure _ _ hc := ⟨hc.1, ⟨Nat.lt_of_lt_of_le hc.2.1.1 h.left.closures,
    Nat.lt_of_lt_of_le hc.2.1.2 h.right.closures⟩, Nat.lt_of_lt_of_le hc.2.2.1 h.left.size,
    Nat.lt_of_lt_of_le hc.2.2.2 h.right.size⟩

end Later

namespace SameValue

theorem mono (h : M.SameValue v₁ v₂) (hM : M.Within M') : M'.SameValue v₁ v₂ := by
  cases h with
  | closure h => exact .closure (hM.closure _ _ h)
  | int => exact .int
  | bool => exact .bool
  | null => exact .null

theorem typeName (h : M.SameValue v₁ v₂) : v₁.typeName = v₂.typeName := by
  cases h <;> rfl

theorem display (h : M.SameValue v₁ v₂) : v₁.display = v₂.display := by
  cases h with
  | closure h => rw [Value.display, Value.display, Closure.arity, Closure.arity, M.params h]
  | _ => rfl

theorem same (h : M.SameValue v₁ v₂) (h' : M.SameValue w₁ w₂) : v₁.same w₁ = v₂.same w₂ := by
  cases h with
  | @closure c₁ c₂ h =>
    cases h' with
    | @closure d₁ d₂ h' =>
      show (c₁.id == d₁.id) = (c₂.id == d₂.id)
      rw [Bool.eq_iff_iff, beq_iff_eq, beq_iff_eq]
      exact M.id_iff h h'
    | _ => rfl
  | _ => cases h' <;> rfl

theorem getD {o₁ o₂ : Option Value} (h : Option.Rel M.SameValue o₁ o₂) :
    M.SameValue (o₁.getD .null) (o₂.getD .null) := by
  cases h with
  | some h => exact h
  | none => exact .null

theorem applyInt (op : Operator) (a b : Int64) :
    ExceptAlike M.SameValue (op.applyInt a b) (op.applyInt a b) := by
  cases op with
  | div | mod =>
    simp only [Operator.applyInt]
    split
    · exact .error
    · exact .ok .int
  | add | sub | mul => exact .ok .int
  | _ => exact .ok .bool

theorem apply (op : Operator) (h : M.SameValue v₁ v₂) (h' : M.SameValue w₁ w₂) :
    ExceptAlike M.SameValue (op.apply v₁ w₁) (op.apply v₂ w₂) := by
  unfold Operator.apply
  split
  · rw [h.same h']
    exact .ok .bool
  · cases h with
    | int =>
      cases h' with
      | int => exact applyInt op _ _
      | _ => exact .error
    | _ => exact .error

end SameValue

/-! ### Names -/

namespace Iso

variable {e₁ e₂ : ScopeId}

theorem bindsLocally_eq (h : M.Iso s₁ s₂) (he : M.scope e₁ e₂) (x : Name) :
    s₁.bindsLocally e₁ x = s₂.bindsLocally e₂ x :=
  (h.vars e₁ e₂ he x).isSome_eq

/-- What holds of paired scopes if it holds of the scopes around them holds of all paired scopes. -/
theorem outwards {P : ScopeId → ScopeId → Prop} (h : M.Iso s₁ s₂) (ordered : s₁.Ordered)
    (step : ∀ e₁ e₂, M.scope e₁ e₂ → Option.Rel P (s₁.parent e₁) (s₂.parent e₂) → P e₁ e₂)
    (he : M.scope e₁ e₂) : P e₁ e₂ := by
  induction e₁ using Nat.strongRecOn generalizing e₂ with
  | _ e₁ ih =>
    refine step e₁ e₂ he ?_
    have hparent := h.parent e₁ e₂ he
    cases hp₁ : s₁.parent e₁ with
    | some p₁ =>
      rw [hp₁] at hparent
      cases hp₂ : s₂.parent e₂ with
      | some p₂ =>
        rw [hp₂] at hparent
        cases hparent with
        | some hp => exact .some (ih p₁ (ordered e₁ p₁ hp₁) hp)
      | none =>
        rw [hp₂] at hparent
        cases hparent
    | none =>
      rw [hp₁] at hparent
      cases hp₂ : s₂.parent e₂ with
      | some p₂ =>
        rw [hp₂] at hparent
        cases hparent
      | none => exact .none

theorem resolve (h : M.Iso s₁ s₂) (ordered₁ : s₁.Ordered) (ordered₂ : s₂.Ordered)
    (he : M.scope e₁ e₂) (x : Name) :
    Option.Rel M.SameValue (s₁.resolve e₁ x) (s₂.resolve e₂ x) := by
  refine h.outwards (P := fun e₁ e₂ => Option.Rel _ (s₁.resolve e₁ x) (s₂.resolve e₂ x)) ordered₁
    (fun e₁ e₂ he hparent => ?_) he
  rw [ordered₁.resolve_eq, ordered₂.resolve_eq]
  exact (h.vars e₁ e₂ he x).or fun _ => hparent.bind fun _ _ hp => hp

theorem binder? (h : M.Iso s₁ s₂) (ordered₁ : s₁.Ordered) (ordered₂ : s₂.Ordered)
    (he : M.scope e₁ e₂) (x : Name) :
    Option.Rel M.scope (s₁.binder? x e₁) (s₂.binder? x e₂) := by
  refine h.outwards (P := fun e₁ e₂ => Option.Rel _ (s₁.binder? x e₁) (s₂.binder? x e₂)) ordered₁
    (fun e₁ e₂ he hparent => ?_) he
  rw [ordered₁.binder?_eq, ordered₂.binder?_eq, h.bindsLocally_eq he x]
  split
  · exact .some he
  · exact hparent.bind fun _ _ hp => hp

theorem root (h : M.Iso s₁ s₂) (ordered₁ : s₁.Ordered) (ordered₂ : s₂.Ordered)
    (he : M.scope e₁ e₂) : M.scope (s₁.root e₁) (s₂.root e₂) := by
  refine h.outwards (P := fun e₁ e₂ => M.scope (s₁.root e₁) (s₂.root e₂)) ordered₁
    (fun e₁ e₂ he hparent => ?_) he
  rw [ordered₁.root_eq, ordered₂.root_eq]
  generalize s₁.parent e₁ = p₁, s₂.parent e₂ = p₂ at hparent
  cases hparent with
  | some hp => exact hp
  | none => exact he

end Iso

/-- What is reached in one store is paired with something that is reached in the other. -/
theorem Iso.reaches {roots₁ roots₂ : Object → Prop} (h : M.Iso s₁ s₂)
    (paired : ∀ o₁, roots₁ o₁ → ∃ o₂, roots₂ o₂ ∧ M.SameObject o₁ o₂) {o₁ : Object}
    (reached : s₁.Reaches roots₁ o₁) : ∃ o₂, s₂.Reaches roots₂ o₂ ∧ M.SameObject o₁ o₂ := by
  induction reached with
  | root hroot =>
    obtain ⟨o₂, hroot₂, same⟩ := paired _ hroot
    exact ⟨o₂, .root hroot₂, same⟩
  | @parent e₁ p₁ _ link ih =>
    obtain ⟨_, reached₂, same⟩ := ih
    cases same with
    | @scope _ e₂ he =>
      have hparent := h.parent e₁ e₂ he
      rw [link] at hparent
      cases hp₂ : s₂.parent e₂ with
      | some p₂ =>
        rw [hp₂] at hparent
        cases hparent with
        | some hp => exact ⟨_, .parent reached₂ hp₂, .scope hp⟩
      | none =>
        rw [hp₂] at hparent
        cases hparent
  | @bound e₁ x c₁ _ link ih =>
    obtain ⟨_, reached₂, same⟩ := ih
    cases same with
    | @scope _ e₂ he =>
      have hvars := h.vars e₁ e₂ he x
      rw [link] at hvars
      cases hv₂ : s₂.local? e₂ x with
      | some v₂ =>
        rw [hv₂] at hvars
        cases hvars with
        | some hv =>
          cases hv with
          | closure hc => exact ⟨_, .bound reached₂ hv₂, .closure hc⟩
      | none =>
        rw [hv₂] at hvars
        cases hvars
  | captured _ ih =>
    obtain ⟨_, reached₂, same⟩ := ih
    cases same with
    | closure hc => exact ⟨_, .captured reached₂, .scope (M.env hc)⟩

/-! ### Operations on both stores -/

namespace Holds

variable {b₁ b₂ e₁ e₂ : ScopeId}

theorem resolve (h : M.Holds s₁ s₂) (he : (M.upTo s₁ s₂).scope e₁ e₂) (x : Name) :
    (M.upTo s₁ s₂).SameValue ((s₁.resolve e₁ x).getD .null) ((s₂.resolve e₂ x).getD .null) :=
  .getD (h.iso.resolve h.ordered₁ h.ordered₂ he x)

theorem upTo_bind (x : Name) :
    M.upTo (s₁.bind b₁ x v₁) (s₂.bind b₂ x v₂) = M.upTo s₁ s₂ := by
  simp only [upTo, Store.size_bind]
  rfl

theorem bind (h : M.Holds s₁ s₂) (hb : (M.upTo s₁ s₂).scope b₁ b₂) (x : Name)
    (hv : (M.upTo s₁ s₂).SameValue v₁ v₂) : M.Holds (s₁.bind b₁ x v₁) (s₂.bind b₂ x v₂) where
  iso := by
    rw [upTo_bind]
    refine ⟨fun e₁ e₂ he => ?_, h.iso.closure_lt, fun e₁ e₂ he => ?_, fun e₁ e₂ he y => ?_⟩
    · rw [Store.size_bind, Store.size_bind]
      exact he.2
    · rw [Store.parent_bind, Store.parent_bind]
      exact h.iso.parent e₁ e₂ he
    · rw [Store.local?_bind, Store.local?_bind]
      have hsame := (M.upTo s₁ s₂).scope_iff he hb
      by_cases hset : e₁ = b₁ ∧ y = x
      · rw [if_pos ⟨hset.1, hb.2.1, hset.2⟩, if_pos ⟨hsame.mp hset.1, hb.2.2, hset.2⟩]
        exact .some hv
      · rw [if_neg (fun h => hset ⟨h.1, h.2.2⟩), if_neg (fun h => hset ⟨hsame.mpr h.1, h.2.2⟩)]
        exact h.iso.vars e₁ e₂ he y
  ordered₁ := h.ordered₁.bind b₁ x v₁
  ordered₂ := h.ordered₂.bind b₂ x v₂
  nextScope := by
    rw [Store.size_bind, Store.size_bind]
    exact h.nextScope
  nextClosure := h.nextClosure

theorem later_bind (hb : (M.upTo s₁ s₂).scope b₁ b₂) (x : Name) :
    M.Later s₁ s₂ (s₁.bind b₁ x v₁) (s₂.bind b₂ x v₂) :=
  ⟨.bind ⟨b₂, hb.1⟩ s₁ x v₁, .bind ⟨b₁, hb.1⟩ s₂ x v₂⟩

theorem update (h : M.Holds s₁ s₂) (he : (M.upTo s₁ s₂).scope e₁ e₂) (x : Name)
    (hv : (M.upTo s₁ s₂).SameValue v₁ v₂) :
    M.Holds (s₁.update e₁ x v₁).2 (s₂.update e₂ x v₂).2 ∧
      M.Later s₁ s₂ (s₁.update e₁ x v₁).2 (s₂.update e₂ x v₂).2 := by
  have hbinder := h.iso.binder? h.ordered₁ h.ordered₂ he x
  have hroot := h.iso.root h.ordered₁ h.ordered₂ he
  unfold Store.update
  generalize s₁.binder? x e₁ = o₁, s₂.binder? x e₂ = o₂ at hbinder
  cases hbinder with
  | some hb => exact ⟨h.bind hb x hv, later_bind hb x⟩
  | none => exact ⟨h.bind hroot x hv, later_bind hroot x⟩

theorem later_child (e₁ e₂ : ScopeId) :
    M.Later s₁ s₂ (s₁.child e₁).2 (s₂.child e₂).2 :=
  ⟨.child s₁ e₁, .child s₂ e₂⟩

/-- New scopes are paired. -/
theorem child_scope (h : M.Holds s₁ s₂) (e₁ e₂ : ScopeId) :
    (M.upTo (s₁.child e₁).2 (s₂.child e₂).2).scope s₁.scopes.size s₂.scopes.size := by
  refine ⟨h.nextScope 0, ?_, ?_⟩
  · rw [Store.child, Store.size_alloc]
    exact Nat.lt_succ_self _
  · rw [Store.child, Store.size_alloc]
    exact Nat.lt_succ_self _

/-- A pair of scopes is the new pair or was there before. -/
theorem child_cases (h : M.Holds s₁ s₂) {p₁ p₂ : ScopeId}
    (he : (M.upTo (s₁.child p₁).2 (s₂.child p₂).2).scope e₁ e₂) :
    (e₁ = s₁.scopes.size ∧ e₂ = s₂.scopes.size) ∨
      (e₁ ≠ s₁.scopes.size ∧ e₂ ≠ s₂.scopes.size ∧ (M.upTo s₁ s₂).scope e₁ e₂) := by
  obtain ⟨hscope, hlt₁, hlt₂⟩ := he
  have hsame : e₁ = s₁.scopes.size ↔ e₂ = s₂.scopes.size := M.scope_iff hscope (h.nextScope 0)
  rw [Store.child, Store.size_alloc] at hlt₁ hlt₂
  by_cases hnew : e₁ = s₁.scopes.size
  · exact .inl ⟨hnew, hsame.mp hnew⟩
  · have hnew' : e₂ ≠ s₂.scopes.size := fun h => hnew (hsame.mpr h)
    exact .inr ⟨hnew, hnew', hscope, Nat.lt_of_le_of_ne (Nat.le_of_lt_succ hlt₁) hnew,
      Nat.lt_of_le_of_ne (Nat.le_of_lt_succ hlt₂) hnew'⟩

theorem child (h : M.Holds s₁ s₂) {p₁ p₂ : ScopeId} (hp : (M.upTo s₁ s₂).scope p₁ p₂) :
    M.Holds (s₁.child p₁).2 (s₂.child p₂).2 where
  iso := by
    have later : M.Later s₁ s₂ (s₁.child p₁).2 (s₂.child p₂).2 := later_child p₁ p₂
    have hM := later.within
    refine ⟨fun _ _ he => he.2, fun _ _ hc => hc.2.1, fun e₁ e₂ he => ?_, fun e₁ e₂ he x => ?_⟩
    · rw [Store.parent_child, Store.parent_child]
      rcases h.child_cases he with ⟨rfl, rfl⟩ | ⟨hne₁, hne₂, hold⟩
      · rw [if_pos rfl, if_pos rfl]
        exact .some (hM.scope _ _ hp)
      · rw [if_neg hne₁, if_neg hne₂]
        exact (h.iso.parent e₁ e₂ hold).imp hM.scope
    · rw [Store.local?_alloc_child, Store.local?_alloc_child]
      rcases h.child_cases he with ⟨rfl, rfl⟩ | ⟨_, _, hold⟩
      · rw [Store.local?_of_size_le (Nat.le_refl _), Store.local?_of_size_le (Nat.le_refl _)]
        exact .none
      · exact (h.iso.vars e₁ e₂ hold x).imp fun _ _ hv => hv.mono hM
  ordered₁ := h.ordered₁.child hp.2.1
  ordered₂ := h.ordered₂.child hp.2.2
  nextScope k := by
    rw [Store.child, Store.child, Store.size_alloc, Store.size_alloc, Nat.add_assoc, Nat.add_assoc]
    exact h.nextScope (1 + k)
  nextClosure := h.nextClosure

section Closures

variable (params : List Name) (body : NodeId) (code : Code)

theorem later_newClosure (e₁ e₂ : ScopeId) :
    M.Later s₁ s₂ (s₁.newClosure params body e₁ code).2 (s₂.newClosure params body e₂ code).2 :=
  ⟨.newClosure s₁ params body e₁ code, .newClosure s₂ params body e₂ code⟩

/-- New closures are paired. -/
theorem newClosure_closure (h : M.Holds s₁ s₂) (he : (M.upTo s₁ s₂).scope e₁ e₂) :
    (M.upTo (s₁.newClosure params body e₁ code).2 (s₂.newClosure params body e₂ code).2).closure
      (s₁.newClosure params body e₁ code).1 (s₂.newClosure params body e₂ code).1 :=
  ⟨h.nextClosure 0 params body code e₁ e₂ he.1, ⟨Nat.lt_succ_self _, Nat.lt_succ_self _⟩, he.2⟩

theorem newClosure (h : M.Holds s₁ s₂) (e₁ e₂ : ScopeId) :
    M.Holds (s₁.newClosure params body e₁ code).2 (s₂.newClosure params body e₂ code).2 where
  iso := by
    have later : M.Later s₁ s₂ (s₁.newClosure params body e₁ code).2
        (s₂.newClosure params body e₂ code).2 := later_newClosure params body code e₁ e₂
    have hM := later.within
    refine ⟨fun _ _ he => he.2, fun _ _ hc => hc.2.1, fun e₁ e₂ he => ?_, fun e₁ e₂ he x => ?_⟩
    · exact (h.iso.parent e₁ e₂ he).imp hM.scope
    · exact (h.iso.vars e₁ e₂ he x).imp fun _ _ hv => hv.mono hM
  ordered₁ := h.ordered₁
  ordered₂ := h.ordered₂
  nextScope := h.nextScope
  nextClosure k params' body' code' d₁ d₂ hd := by
    have hnext := h.nextClosure (1 + k) params' body' code' d₁ d₂ hd
    rwa [← Nat.add_assoc, ← Nat.add_assoc] at hnext

end Closures

end Holds

end Matching

end Treewalk
