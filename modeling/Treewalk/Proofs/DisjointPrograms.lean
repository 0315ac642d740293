import Treewalk.Proofs.Enclosure
import Treewalk.Proofs.Isomorphism
import Treewalk.Proofs.Privacy
import Treewalk.Proofs.SideBySide

/-! Programs without a common name commute. They bind their variables in one outermost scope and
take their scopes and closures from one store. But after the other one each runs as it does alone,
up to the numbers of its scopes and closures, and it changes no variable that the other one
mentions. So nothing but these numbers depends on the order in which the programs run. -/

namespace Treewalk

/-- The names that a node mentions: one that it reads, declares or assigns, or its parameters. -/
def Arena.mentions (a : Arena) : Node → List Name
  | .ident x | .declare x _ | .assign x _ => [x]
  | .function span _ => (a.parameters? span).getD []
  | _ => []

/-- An arena that a builder made, and a number in it to start from. -/
structure Program where
  code : Code
  root : NodeId
  produced : code.arena.Produced
  covers : code.arena.Covers root

namespace Program

variable {P Q : Program} {names : Interner} {limit : Option Nat} {k : Sink} {r : Outcome Value}

/-- The expression is a part of the program. -/
def Contains (P : Program) (id : NodeId) : Prop := ∃ site, P.code.arena.Encloses P.root site id

/-- A node of the program mentions the name. -/
def Mentions (P : Program) (x : Name) : Prop :=
  ∃ id node, P.Contains id ∧ P.code.arena.Holds id node ∧ x ∈ P.code.arena.mentions node

/-- The program, run in the outermost scope of the state, ends in `r`. -/
abbrev Ends (P : Program) (names : Interner) (limit : Option Nat) (s : State)
    (r : Outcome Value) : Prop :=
  (Interpreter.start names P.code limit).Ends P.root s r

theorem covers_of_contains {id : NodeId} (h : P.Contains id) : P.code.arena.Covers id := by
  obtain ⟨site, h⟩ := h
  cases h with
  | root => exact P.covers
  | child _ hold hj => exact P.produced.founded.covers hold.stored hj

theorem node_alike {id : NodeId} {node : Node} (h : P.Contains id)
    (hold : P.code.arena.Holds id node) :
    node.Alike (fun x₁ x₂ => x₁ = x₂ ∧ P.Mentions x₁) node := by
  have hname : ∀ x ∈ P.code.arena.mentions node, P.Mentions x := fun x hx => ⟨id, node, h, hold, hx⟩
  cases node with
  | ident x => exact .ident ⟨rfl, hname x (List.mem_singleton_self x)⟩
  | declare x _ => exact .declare ⟨rfl, hname x (List.mem_singleton_self x)⟩
  | assign x _ => exact .assign ⟨rfl, hname x (List.mem_singleton_self x)⟩
  | _ => exact .nameless rfl

/-! ### A program after others -/

/-- The outermost scope keeps its number, and the scopes after it get the numbers from `n` on. -/
def Moved (n e₁ e₂ : Nat) : Prop := (e₁ = 0 ∧ e₂ = 0) ∨ (0 < e₁ ∧ e₂ + 1 = n + e₁)

theorem Moved.lt_iff {n e₁ e₂ b₁ b₂ : Nat} (hn : 0 < n) (he : Moved n e₁ e₂)
    (hb : Moved n b₁ b₂) : e₁ < b₁ ↔ e₂ < b₂ := by
  unfold Moved at he hb
  omega

theorem Moved.zero_or_le {n e₁ e₂ : Nat} (h : Moved n e₁ e₂) :
    (e₁ = 0 ∧ e₂ = 0) ∨ (0 < e₁ ∧ n ≤ e₂) := by
  unfold Moved at h
  omega

/-- The program run alone beside the same program run in the store `t` that others left. The
outermost scope is the same, and the scopes and closures that the program makes come after those
that are there. -/
def beside (P : Program) (names : Interner) {t : Store} (there : 0 < t.scopes.size) :
    Translation where
  names₁ := names
  names₂ := names
  name x₁ x₂ := x₁ = x₂ ∧ P.Mentions x₁
  expr c₁ c₂ id := (c₁ = P.code ∧ c₂ = P.code) ∧ P.Contains id
  scope := Moved t.scopes.size
  closure i₁ i₂ := i₂ = t.nextClosure + i₁
  name_iff := by
    rintro x _ y _ ⟨rfl, _⟩ ⟨rfl, _⟩
    exact Iff.rfl
  text := by
    rintro x _ ⟨rfl, _⟩
    rfl
  scope_lt := Moved.lt_iff there
  id_iff := by
    rintro i₁ i₂ j₁ j₂ hi hj
    omega
  node := by
    rintro _ _ id ⟨⟨rfl, rfl⟩, inside⟩ present
    have hlt := (covers_of_contains inside).resolve_left (NodeId.isPresent_iff.mp present)
    obtain ⟨node, hnode⟩ := Arena.exists_node? hlt
    exact ⟨node, node, ⟨present, hnode⟩, ⟨present, hnode⟩, node_alike inside ⟨present, hnode⟩⟩
  child := by
    rintro _ _ id node j ⟨same, site, inside⟩ hold hj
    obtain ⟨rfl, rfl⟩ := same
    exact ⟨⟨rfl, rfl⟩, _, inside.child hold hj⟩
  arguments := by
    rintro _ _ id f span ⟨⟨rfl, rfl⟩, _⟩ hold
    obtain ⟨ids, hids⟩ := Option.isSome_iff_exists.mp (P.produced.founded.reads id _ hold.stored)
    exact ⟨ids, hids, hids⟩
  parameters := by
    rintro _ _ id span body ⟨⟨rfl, rfl⟩, inside⟩ hold
    obtain ⟨xs, hxs⟩ := Option.isSome_iff_exists.mp (P.produced.founded.reads id _ hold.stored)
    refine ⟨xs, xs, hxs, hxs, List.forall₂_same.mpr fun x hx => ⟨rfl, id, _, inside, hold, ?_⟩⟩
    rw [Arena.mentions, hxs]
    exact hx

/-- A store whose outermost scope binds no name of the program is as good as an empty one. -/
theorem holds_beside {t : Store} (there : 0 < t.scopes.size) (outermost : t.parent 0 = none)
    (free : ∀ x, P.Mentions x → t.local? 0 x = none) :
    (P.beside names there).Holds (State.start k).store t where
  parent := by
    intro e₁ e₂ he
    rw [State.parent_start]
    rcases Moved.zero_or_le he with ⟨_, rfl⟩ | ⟨_, new⟩
    · rw [outermost]
      exact .none
    · rw [Store.parent_of_size_le new]
      exact .none
  vars := by
    rintro e₁ e₂ x _ he ⟨rfl, mentioned⟩
    rw [State.local?_start]
    rcases Moved.zero_or_le he with ⟨_, rfl⟩ | ⟨_, new⟩
    · rw [free x mentioned]
      exact .none
    · rw [Store.local?_of_size_le new]
      exact .none
  nextScope j := by
    have hsize : (State.start k).store.scopes.size = 1 := rfl
    rw [hsize]
    exact .inr ⟨by omega, by omega⟩
  nextClosure j := congrArg (t.nextClosure + ·) (Nat.zero_add j).symm

/-- A program that ends alone also ends in a store that binds none of its names. -/
theorem Ends.beside (h : P.Ends names limit (.start k) r) {t : Store} (there : 0 < t.scopes.size)
    (outermost : t.parent 0 = none) (free : ∀ x, P.Mentions x → t.local? 0 x = none) (k' : Sink) :
    ∃ r', P.Ends names limit ⟨t, k'⟩ r' ∧
      (P.beside names there).Together (P.beside names there).SameValue (State.start k).store t k k'
        r r' := by
  have holds : (P.beside names there).Holds (State.start k).store t :=
    holds_beside there outermost free
  have same : (P.beside names there).SameScope (Interpreter.start names P.code limit)
      (Interpreter.start names P.code limit) := ⟨⟨rfl, rfl, rfl, rfl⟩, .inl ⟨rfl, rfl⟩⟩
  exact (holds.endAlike same ⟨⟨rfl, rfl⟩, [], .root⟩ k k').forth r h

/-- A program that runs alone binds only names that it mentions. -/
theorem Ends.alters (h : P.Ends names limit (.start k) r) :
    (State.start k).store.Alters (fun _ x => P.Mentions x) r.state.store := by
  have there : 0 < (State.start k).store.scopes.size := Nat.zero_lt_one
  obtain ⟨_, _, together⟩ := h.beside there (State.parent_start k 0)
    (fun x _ => State.local?_start k 0 x) k
  refine together.later.left.mono ?_
  rintro e x ⟨_, _, _, mentioned⟩
  exact mentioned

theorem Ends.there (h : P.Ends names limit (.start k) r) : 0 < r.state.store.scopes.size :=
  h.alters.size

theorem Ends.outermost (h : P.Ends names limit (.start k) r) : r.state.store.parent 0 = none :=
  (h.alters.parent 0 Nat.zero_lt_one).trans (State.parent_start k 0)

theorem Ends.free (h : P.Ends names limit (.start k) r) (e : ScopeId) (x : Name)
    (unmentioned : ¬ P.Mentions x) : r.state.store.local? e x = none :=
  (h.alters.spared e x unmentioned).trans (State.local?_start k e x)

theorem Ends.wellFormed (h : P.Ends names limit (.start k) r) :
    r.state.store.WellFormed ∧ ∀ v s, r = .ok v s → s.store.HasValue v := by
  obtain ⟨n, hn⟩ := h.settles
  have there : (State.start k).store.Has (.scope (Interpreter.start names P.code limit).env) :=
    Nat.zero_lt_one
  have together := Store.evalWith_together Store.wellFormed_empty.global there n P.root k
  have hrun : (Interpreter.start names P.code limit).evalWith n P.root (.start k) = r :=
    hn n (Nat.le_refl n)
  exact Outcome.wellFormed_of_together (hrun ▸ together)

/-- A program without a name of the other one ends after it as it does alone. -/
theorem Ends.after {p q : Outcome Value} (hp : P.Ends names limit (.start k) p)
    (hq : Q.Ends names limit (.start k) q) (apart : ∀ x, Q.Mentions x → ¬ P.Mentions x) :
    ∃ pq, Q.Ends names limit p.state pq ∧
      (Q.beside names hp.there).Together (Q.beside names hp.there).SameValue (State.start k).store
        p.state.store k p.state.sink q pq :=
  hq.beside hp.there hp.outermost (fun x mentioned => hp.free 0 x (apart x mentioned)) p.state.sink

theorem params_eq {t : Store} {there : 0 < t.scopes.size} {c₁ c₂ : Closure}
    (h : (P.beside names there).SameClosure c₁ c₂) : c₁.params = c₂.params := by
  have hparams : List.Forall₂ Eq c₁.params c₂.params := h.params.imp fun _ _ hx => hx.1
  rwa [List.forall₂_eq_eq_eq] at hparams

/-! ### Both orders -/

/-- The stores after `P` alone, after `Q` alone, after `P` and then `Q`, and after `Q` and then
`P`. -/
structure BothOrders (names : Interner) (P Q : Program) (p q pq qp : Store) : Prop where
  apart : ∀ x, P.Mentions x → ¬ Q.Mentions x
  there₁ : 0 < p.scopes.size
  there₂ : 0 < q.scopes.size
  wf₁ : p.WellFormed
  wf₂ : q.WellFormed
  free₁ : ∀ e x, ¬ P.Mentions x → p.local? e x = none
  free₂ : ∀ e x, ¬ Q.Mentions x → q.local? e x = none
  holds₁ : (P.beside names there₂).Holds p qp
  holds₂ : (Q.beside names there₁).Holds q pq
  alters₁ : q.Alters (fun e x => (e = 0 ∨ q.scopes.size ≤ e) ∧ P.Mentions x) qp
  alters₂ : p.Alters (fun e x => (e = 0 ∨ p.scopes.size ≤ e) ∧ Q.Mentions x) pq

/-- With `m` scopes after one program and `n` after the other: the scopes of the first come first in
one order, and those of the second in the other order. -/
def Swapped (m n e₁ e₂ : Nat) : Prop :=
  (Moved n e₁ e₂ ∧ e₁ < m) ∨ (Moved m e₂ e₁ ∧ e₂ < n)

theorem Swapped.eq_iff {m n e₁ e₂ b₁ b₂ : Nat} (hm : 0 < m) (hn : 0 < n) (he : Swapped m n e₁ e₂)
    (hb : Swapped m n b₁ b₂) : e₁ = b₁ ↔ e₂ = b₂ := by
  unfold Swapped Moved at he hb
  omega

namespace BothOrders

variable {p q pq qp : Store}

theorem symm (h : BothOrders names P Q p q pq qp) : BothOrders names Q P q p qp pq where
  apart x hQ hP := h.apart x hP hQ
  there₁ := h.there₂
  there₂ := h.there₁
  wf₁ := h.wf₂
  wf₂ := h.wf₁
  free₁ := h.free₂
  free₂ := h.free₁
  holds₁ := h.holds₂
  holds₂ := h.holds₁
  alters₁ := h.alters₂
  alters₂ := h.alters₁

/-- One of the programs makes `c₁` and `c₂`, in the one order and in the other. -/
def Paired (h : BothOrders names P Q p q pq qp) (c₁ c₂ : Closure) : Prop :=
  ((P.beside names h.there₂).SameClosure c₁ c₂ ∧ p.Has (.closure c₁) ∧ p.Has (.scope c₁.env)) ∨
  ((Q.beside names h.there₁).SameClosure c₂ c₁ ∧ q.Has (.closure c₂) ∧ q.Has (.scope c₂.env))

theorem Paired.ids {h : BothOrders names P Q p q pq qp} {c₁ c₂ : Closure} (hc : h.Paired c₁ c₂) :
    (c₂.id = q.nextClosure + c₁.id ∧ c₁.id < p.nextClosure) ∨
    (c₁.id = p.nextClosure + c₂.id ∧ c₂.id < q.nextClosure) := by
  rcases hc with ⟨same, there, _⟩ | ⟨same, there, _⟩
  · exact .inl ⟨same.id, there⟩
  · exact .inr ⟨same.id, there⟩

/-- Pairs the scopes and closures that each program makes in one order with those it makes in the
other. -/
def matching (h : BothOrders names P Q p q pq qp) : Matching where
  scope := Swapped p.scopes.size q.scopes.size
  closure := h.Paired
  scope_iff := Swapped.eq_iff h.there₁ h.there₂
  id_iff hc hd := by
    have hc := hc.ids
    have hd := hd.ids
    omega
  params := by
    rintro c₁ c₂ (⟨hc, _⟩ | ⟨hc, _⟩)
    · exact params_eq hc
    · exact (params_eq hc).symm
  body := by
    rintro c₁ c₂ (⟨hc, _⟩ | ⟨hc, _⟩)
    · exact hc.body
    · exact hc.body.symm
  code := by
    rintro c₁ c₂ (⟨hc, _⟩ | ⟨hc, _⟩)
    · exact hc.expr.1.1.trans hc.expr.1.2.symm
    · exact hc.expr.1.2.trans hc.expr.1.1.symm
  env := by
    rintro c₁ c₂ (⟨hc, _, henv⟩ | ⟨hc, _, henv⟩)
    · exact .inl ⟨hc.env, henv⟩
    · exact .inr ⟨hc.env, henv⟩

variable {v₁ v₂ : Value} {e₁ e₂ : ScopeId} {x : Name}

theorem sameValue_of_symm (h : BothOrders names P Q p q pq qp)
    (hv : h.symm.matching.SameValue v₂ v₁) : h.matching.SameValue v₁ v₂ := by
  have hwithin : h.symm.matching.Within h.matching.symm :=
    ⟨fun _ _ => Or.symm, fun _ _ => Or.symm⟩
  exact (hv.mono hwithin).symm

theorem sameValue (h : BothOrders names P Q p q pq qp)
    (hv : (P.beside names h.there₂).SameValue v₁ v₂) (there : p.HasValue v₁) :
    h.matching.SameValue v₁ v₂ := by
  cases hv with
  | closure hc => exact .closure (.inl ⟨hc, there _ rfl⟩)
  | int => exact .int
  | bool => exact .bool
  | null => exact .null

/-! ### What the first program made -/

theorem scope_lt (h : BothOrders names P Q p q pq qp) (he : Moved q.scopes.size e₁ e₂)
    (hlt : e₁ < p.scopes.size) : e₁ < pq.scopes.size ∧ e₂ < qp.scopes.size := by
  refine ⟨Nat.lt_of_lt_of_le hlt h.alters₂.size, ?_⟩
  exact ((P.beside names h.there₂).scope_lt he (h.holds₁.nextScope 0)).mp hlt

theorem parent (h : BothOrders names P Q p q pq qp) (he : Moved q.scopes.size e₁ e₂)
    (hlt : e₁ < p.scopes.size) :
    Option.Rel (Swapped p.scopes.size q.scopes.size) (pq.parent e₁) (qp.parent e₂) := by
  rw [h.alters₂.parent e₁ hlt]
  refine (h.holds₁.parent e₁ e₂ he).imp_of_some fun b₁ b₂ hparent hb => .inl ⟨hb, ?_⟩
  exact Nat.lt_trans (h.wf₁.ordered e₁ b₁ hparent) hlt

/-- What a program does to the names it mentions is the same in both orders. -/
theorem vars_of_mentions (h : BothOrders names P Q p q pq qp) (he : Moved q.scopes.size e₁ e₂)
    (mentioned : P.Mentions x) :
    Option.Rel h.matching.SameValue (pq.local? e₁ x) (qp.local? e₂ x) := by
  rw [h.alters₂.spared e₁ x fun inside => h.apart x mentioned inside.2]
  refine (h.holds₁.vars e₁ e₂ x x he ⟨rfl, mentioned⟩).imp_of_some fun v₁ v₂ hbound hv => ?_
  exact h.sameValue hv (h.wf₁.bound e₁ x v₁ hbound)

theorem vars (h : BothOrders names P Q p q pq qp) (he : Moved q.scopes.size e₁ e₂)
    (hlt : e₁ < p.scopes.size) (x : Name) :
    Option.Rel h.matching.SameValue (pq.local? e₁ x) (qp.local? e₂ x) := by
  by_cases hP : P.Mentions x
  · exact h.vars_of_mentions he hP
  -- `P` leaves alone what it does not mention, and of its scopes `Q` shares only the outermost
  have hq : qp.local? e₂ x = q.local? e₂ x := h.alters₁.spared e₂ x fun inside => hP inside.2
  rcases he.zero_or_le with ⟨rfl, rfl⟩ | ⟨inner, new⟩
  · by_cases hQ : Q.Mentions x
    · have hvars := h.symm.vars_of_mentions (.inl ⟨rfl, rfl⟩) hQ
      exact hvars.flip.imp fun _ _ hv => h.sameValue_of_symm hv
    · rw [hq, h.free₂ 0 x hQ, h.alters₂.spared 0 x fun inside => hQ inside.2, h.free₁ 0 x hP]
      exact .none
  · have hspared : pq.local? e₁ x = p.local? e₁ x := by
      refine h.alters₂.spared e₁ x fun inside => ?_
      rcases inside.1 with rfl | hge
      · exact Nat.lt_irrefl 0 inner
      · exact Nat.not_le_of_lt hlt hge
    rw [hq, Store.local?_of_size_le new, hspared, h.free₁ e₁ x hP]
    exact .none

/-- The stores that both orders leave are isomorphic. -/
theorem iso (h : BothOrders names P Q p q pq qp) : h.matching.Iso pq qp where
  scope_lt := by
    rintro e₁ e₂ (⟨he, hlt⟩ | ⟨he, hlt⟩)
    · exact h.scope_lt he hlt
    · exact (h.symm.scope_lt he hlt).symm
  closure_lt c₁ c₂ hc := by
    have hp : pq.nextClosure = p.nextClosure + q.nextClosure := h.holds₂.nextClosure 0
    have hq : qp.nextClosure = q.nextClosure + p.nextClosure := h.holds₁.nextClosure 0
    have hids := Paired.ids (h := h) hc
    omega
  parent := by
    rintro e₁ e₂ (⟨he, hlt⟩ | ⟨he, hlt⟩)
    · exact h.parent he hlt
    · exact (h.symm.parent he hlt).flip.imp fun _ _ => Or.symm
  vars := by
    rintro e₁ e₂ (⟨he, hlt⟩ | ⟨he, hlt⟩) x
    · exact h.vars he hlt x
    · exact (h.symm.vars he hlt x).flip.imp fun _ _ hv => h.sameValue_of_symm hv

end BothOrders

section Outcomes

variable {p q pq qp : Outcome Value}

/-- A program in a store that others left changes variables of the outermost scope and of its own
scopes. -/
theorem alters_of_together {t : Store} {there : 0 < t.scopes.size} {k' : Sink}
    (h : (P.beside names there).Together (P.beside names there).SameValue (State.start k).store t k
      k' p qp) :
    t.Alters (fun e x => (e = 0 ∨ t.scopes.size ≤ e) ∧ P.Mentions x) qp.state.store := by
  refine h.later.right.mono ?_
  rintro e x ⟨⟨e', he⟩, _, rfl, mentioned⟩
  rcases Moved.zero_or_le he with ⟨_, rfl⟩ | ⟨_, new⟩
  · exact ⟨.inl rfl, mentioned⟩
  · exact ⟨.inr new, mentioned⟩

theorem bothOrders (apart : ∀ x, P.Mentions x → ¬ Q.Mentions x)
    (hp : P.Ends names limit (.start k) p) (hq : Q.Ends names limit (.start k) q)
    (first : (P.beside names hq.there).Together (P.beside names hq.there).SameValue
      (State.start k).store q.state.store k q.state.sink p qp)
    (second : (Q.beside names hp.there).Together (Q.beside names hp.there).SameValue
      (State.start k).store p.state.store k p.state.sink q pq) :
    BothOrders names P Q p.state.store q.state.store pq.state.store qp.state.store where
  apart := apart
  there₁ := hp.there
  there₂ := hq.there
  wf₁ := hp.wellFormed.1
  wf₂ := hq.wellFormed.1
  free₁ := hp.free
  free₂ := hq.free
  holds₁ := first.holds
  holds₂ := second.holds
  alters₁ := alters_of_together first
  alters₂ := alters_of_together second

/-- The outcome of a program is the same in both orders. -/
theorem BothOrders.alike {q pq : Store} {k' : Sink}
    (h : BothOrders names P Q p.state.store q pq qp.state.store)
    (hvalue : ∀ v s, p = .ok v s → s.store.HasValue v)
    (together : (P.beside names h.there₂).Together (P.beside names h.there₂).SameValue
      (State.start k).store q k k' p qp) :
    p.Alike h.matching.SameValue qp := by
  cases together with
  | ok _ _ _ hv => exact .ok (h.sameValue hv (hvalue _ _ rfl))
  | error => exact .error

end Outcomes

end Program

/-- Up to the numbers of scopes and closures that `M` pairs, two programs give the same results in
both orders, print the same lines after what the sink `k` has, and leave the same variables. The
outcomes are those of the first program, of the second one, of the second one after the first and of
the first one after the second. -/
structure Matching.Commutes (M : Matching) (k : Sink) (p q pq qp : Outcome Value) : Prop where
  first : p.Alike M.SameValue qp
  second : pq.Alike M.SameValue q
  outermost : M.scope 0 0
  iso : M.Iso pq.state.store qp.state.store
  printed : ∃ lines₁ lines₂ : List String,
    p.state.sink = lines₁.foldl Sink.writeLine k ∧
    pq.state.sink = lines₂.foldl Sink.writeLine p.state.sink ∧
    q.state.sink = lines₂.foldl Sink.writeLine k ∧
    qp.state.sink = lines₁.foldl Sink.writeLine q.state.sink

/-- Programs without a common name commute. If both end alone, each also ends in the store that the
other one left, even if that one failed, and nothing but the numbers of scopes and closures depends
on the order. -/
theorem disjoint_programs_commute {P Q : Program} (apart : ∀ x, P.Mentions x → ¬ Q.Mentions x)
    {names : Interner} {limit : Option Nat} {k : Sink} {p q : Outcome Value}
    (hp : P.Ends names limit (.start k) p) (hq : Q.Ends names limit (.start k) q) :
    ∃ pq qp, Q.Ends names limit p.state pq ∧ P.Ends names limit q.state qp ∧
      ∃ M : Matching, M.Commutes k p q pq qp := by
  obtain ⟨pq, hpq, second⟩ := hp.after hq fun x hQ hP => apart x hP hQ
  obtain ⟨qp, hqp, first⟩ := hq.after hp apart
  have both := Program.bothOrders apart hp hq first second
  have hfirst := both.alike hp.wellFormed.2 first
  have hsecond : pq.Alike both.matching.SameValue q := by
    have hsymm := both.symm.alike hq.wellFormed.2 second
    cases hsymm with
    | ok hv => exact .ok (both.sameValue_of_symm hv)
    | error => exact .error
  obtain ⟨lines₁, hlines₁, hlines₁'⟩ := first.printed
  obtain ⟨lines₂, hlines₂, hlines₂'⟩ := second.printed
  refine ⟨pq, qp, hpq, hqp, both.matching, hfirst, hsecond, ?_, both.iso, ?_⟩
  · exact .inl ⟨.inl ⟨rfl, rfl⟩, hp.there⟩
  · exact ⟨lines₁, lines₂, hlines₁, hlines₂', hlines₂, hlines₁'⟩

/-- A program that fails after a declaration, and another declaration. -/
theorem disjoint_programs_commute_failing :
    ∃ (P Q : Program) (p q pq qp : Outcome Value),
      P.code.arena.nodes = #[.int 1, .declare .empty ⟨0⟩, .call ⟨0⟩ .empty, .seq ⟨1⟩ ⟨2⟩] ∧
      Q.code.arena.nodes = #[.int 2, .declare ⟨1⟩ ⟨0⟩] ∧
      (∃ t, p = .error (.error (.notCallable "int")) t) ∧
      P.Ends (Interner.initial.push "a") none (.start (.buffer #[])) p ∧
      Q.Ends (Interner.initial.push "a") none (.start (.buffer #[])) q ∧
      Q.Ends (Interner.initial.push "a") none p.state pq ∧
      P.Ends (Interner.initial.push "a") none q.state qp ∧
      ∃ M : Matching, M.Commutes (.buffer #[]) p q pq qp := by
  have new : Interner.initial.find? "a" = none := by
    simp [Interner.initial, Interner.find?]
  have declared : ∀ s x names n, Interner.intern s .initial = .ok x names →
      (Construct.declare s ⟨0⟩).perform ⟨.initial, { nodes := #[.int n] }⟩ =
        .ok (some ⟨1⟩) ⟨names, { nodes := #[.int n, .declare x ⟨0⟩] }⟩ := by
    intro s x names n hintern
    simp only [Construct.perform, Builder.declare, map_bind]
    simp only [Bind.bind, EStateM.bind, Builder.intern, Builder.onNames, hintern]
    rfl
  have grown : ∀ s x names n, Interner.intern s .initial = .ok x names →
      Builder.Grown ⟨names, { nodes := #[.int n, .declare x ⟨0⟩] }⟩ [⟨1⟩, ⟨0⟩] := by
    intro s x names n hintern
    exact .construct (.construct (.start .initial) (.int n) (by simp [Construct.ids]) rfl)
      (.declare s ⟨0⟩) (by simp [Construct.ids]) (declared s x names n hintern)
  let P : Program :=
    { code := ⟨0, { nodes := #[.int 1, .declare .empty ⟨0⟩, .call ⟨0⟩ .empty, .seq ⟨1⟩ ⟨2⟩] }⟩
      root := ⟨3⟩
      produced := by
        have declares := grown "" .empty .initial 1 Interner.intern_empty
        exact ⟨_, _, .construct (.construct declares (.call ⟨0⟩ []) (by simp [Construct.ids]) rfl)
          (.seqPair ⟨1⟩ ⟨2⟩) (by simp [Construct.ids]) rfl, rfl⟩
      covers := .inr (by decide) }
  let Q : Program :=
    { code := ⟨1, { nodes := #[.int 2, .declare ⟨1⟩ ⟨0⟩] }⟩
      root := ⟨1⟩
      produced := ⟨_, _, grown "a" ⟨1⟩ (Interner.initial.push "a") 2
        (Interner.intern_of_find?_eq_none new (by decide)), rfl⟩
      covers := .inr (by decide) }
  have hP : ∀ x, P.Mentions x → x = .empty := by
    rintro x ⟨id, node, _, hold, hx⟩
    have hmem := Array.mem_of_getElem? hold.stored
    simp only [P, List.mem_toArray, List.mem_cons, List.not_mem_nil, or_false] at hmem
    rcases hmem with rfl | rfl | rfl | rfl
    · cases hx
    · exact List.mem_singleton.mp hx
    · cases hx
    · cases hx
  have hQ : ∀ x, Q.Mentions x → x = ⟨1⟩ := by
    rintro x ⟨id, node, _, hold, hx⟩
    have hmem := Array.mem_of_getElem? hold.stored
    simp only [Q, List.mem_toArray, List.mem_cons, List.not_mem_nil, or_false] at hmem
    rcases hmem with rfl | rfl
    · cases hx
    · exact List.mem_singleton.mp hx
  have apart : ∀ x, P.Mentions x → ¬ Q.Mentions x := by
    intro x hx hx'
    cases (hP x hx).symm.trans (hQ x hx')
  have endP : P.Ends (Interner.initial.push "a") none (.start (.buffer #[]))
      (.error (.error (.notCallable "int")) _) := Interpreter.ends_of_evalWith (n := 5) rfl trivial
  have endQ : Q.Ends (Interner.initial.push "a") none (.start (.buffer #[])) (.ok _ _) :=
    Interpreter.ends_of_evalWith (n := 5) rfl trivial
  obtain ⟨pq, qp, hpq, hqp, commutes⟩ := disjoint_programs_commute apart endP endQ
  exact ⟨P, Q, _, _, pq, qp, rfl, rfl, ⟨_, rfl⟩, endP, endQ, hpq, hqp, commutes⟩

end Treewalk
