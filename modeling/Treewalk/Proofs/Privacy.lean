import Treewalk.Proofs.Lockstep

/-! Private state is private: an evaluation changes only scopes that it can reach, and what can be
reached afterwards could be reached before or is new. The proof matches the store with itself on the
objects that can be reached and those still to come: the evaluation stays in step with itself, so it
never leaves these objects. -/

namespace Treewalk

/-- A set of objects that links of the store do not leave and to which all new objects belong. -/
structure Store.Region (s : Store) (region : Object → Prop) : Prop where
  captured : ∀ c, region (.closure c) → region (.scope c.env)
  parent : ∀ e p, region (.scope e) → s.parent e = some p → region (.scope p)
  bound : ∀ e x c, region (.scope e) → s.local? e x = some (.closure c) → region (.closure c)
  nextScope : ∀ e, s.scopes.size ≤ e → region (.scope e)
  nextClosure : ∀ c : Closure, s.nextClosure ≤ c.id → region (.scope c.env) → region (.closure c)

namespace Store.Region

variable {s : Store} {region : Object → Prop}

/-- Pairs every object of the region with itself. -/
def matching (h : s.Region region) : Matching where
  scope e₁ e₂ := e₁ = e₂ ∧ region (.scope e₁)
  closure c₁ c₂ := c₁ = c₂ ∧ region (.closure c₁)
  scope_iff := by
    rintro e₁ _ b₁ _ ⟨rfl, _⟩ ⟨rfl, _⟩
    rfl
  id_iff := by
    rintro c₁ _ d₁ _ ⟨rfl, _⟩ ⟨rfl, _⟩
    rfl
  params hc := by rw [hc.1]
  body hc := by rw [hc.1]
  code hc := by rw [hc.1]
  env hc := ⟨by rw [hc.1], h.captured _ hc.2⟩

theorem sameValue (h : s.Region region) {v : Value} (hv : s.HasValue v)
    (inside : ∀ c, v = .closure c → region (.closure c)) :
    (h.matching.upTo s s).SameValue v v := by
  cases v with
  | closure c =>
    obtain ⟨hid, henv⟩ := hv c rfl
    exact .closure ⟨⟨rfl, inside c rfl⟩, ⟨hid, hid⟩, henv, henv⟩
  | int n => exact .int
  | bool b => exact .bool
  | null => exact .null

theorem holds (h : s.Region region) (wf : s.WellFormed) : h.matching.Holds s s where
  iso := by
    refine ⟨fun _ _ he => he.2, fun _ _ hc => hc.2.1, ?_, ?_⟩
    · rintro e _ ⟨⟨rfl, inside⟩, hlt, _⟩
      cases hp : s.parent e with
      | some p =>
        have hlt' : p < s.scopes.size := Nat.lt_trans (wf.ordered e p hp) hlt
        exact .some ⟨⟨rfl, h.parent e p inside hp⟩, hlt', hlt'⟩
      | none => exact .none
    · rintro e _ ⟨⟨rfl, inside⟩, _, _⟩ x
      cases hv : s.local? e x with
      | some v =>
        refine .some (h.sameValue (wf.bound e x v hv) ?_)
        rintro c rfl
        exact h.bound e x c inside hv
      | none => exact .none
  ordered₁ := wf.ordered
  ordered₂ := wf.ordered
  nextScope k := ⟨rfl, h.nextScope _ (Nat.le_add_right _ k)⟩
  nextClosure k params body code e₁ e₂ he := by
    obtain ⟨rfl, inside⟩ := he
    exact ⟨rfl, h.nextClosure _ (Nat.le_add_right _ k) inside⟩

/-- Objects that are paired are there and belong to the region. -/
theorem of_sameObject (h : s.Region region) {t : Store} {o o' : Object}
    (same : (h.matching.upTo t t).SameObject o o') : region o ∧ t.Has o := by
  cases same with
  | scope he => exact ⟨he.1.2, he.2.1⟩
  | closure hc => exact ⟨hc.1.2, hc.2.1.1⟩

end Store.Region

namespace Store

/-- All objects. -/
theorem region_all (s : Store) : s.Region fun _ => True :=
  ⟨fun _ _ => trivial, fun _ _ _ _ => trivial, fun _ _ _ _ _ => trivial, fun _ _ => trivial,
    fun _ _ _ => trivial⟩

/-- The objects that are reached and those still to come. -/
def ReachedOrNew (s : Store) (roots : Object → Prop) : Object → Prop
  | .scope e => s.Reaches roots (.scope e) ∨ s.scopes.size ≤ e
  | .closure c => s.Reaches roots (.closure c) ∨
    s.nextClosure ≤ c.id ∧ (s.Reaches roots (.scope c.env) ∨ s.scopes.size ≤ c.env)

theorem region_reached (s : Store) (roots : Object → Prop) : s.Region (s.ReachedOrNew roots) where
  captured c hc := by
    rcases hc with hc | hc
    · exact .inl (.captured hc)
    · exact hc.2
  parent e p he hp := by
    rcases he with he | he
    · exact .inl (.parent he hp)
    · rw [parent_of_size_le he] at hp
      cases hp
  bound e x c he hc := by
    rcases he with he | he
    · exact .inl (.bound he hc)
    · rw [local?_of_size_le he] at hc
      cases hc
  nextScope e he := .inr he
  nextClosure c hid henv := .inr ⟨hid, henv⟩

theorem ReachedOrNew.reaches {s : Store} {roots : Object → Prop} {o : Object}
    (h : s.ReachedOrNew roots o) (old : s.Has o) : s.Reaches roots o := by
  cases o with
  | scope e => exact h.resolve_right (Nat.not_le_of_lt old)
  | closure c => exact h.resolve_right fun hnew => Nat.not_le_of_lt old hnew.1

/-- A store that is matched with itself on all objects is well-formed. -/
theorem wellFormed_of_holds {s t : Store} (h : s.region_all.matching.Holds t t) :
    t.WellFormed := by
  refine ⟨h.ordered₁, fun e x v hv c hc => ?_⟩
  subst hc
  have hlt : e < t.scopes.size := by
    by_contra hge
    rw [local?_of_size_le (Nat.le_of_not_lt hge)] at hv
    cases hv
  have hrel := h.iso.vars e e ⟨⟨rfl, trivial⟩, hlt, hlt⟩ x
  rw [hv] at hrel
  cases hrel with
  | some hsame =>
    cases hsame with
    | closure hc => exact ⟨hc.2.1.1, hc.2.2.1⟩

end Store

/-! ### Stores that arise -/

namespace Store

/-- The stores that come about: whoever holds scopes and values adds scopes, closures and arenas,
binds names, and has expressions and calls evaluated. -/
inductive Arises : Store → Prop where
  | empty : Arises {}
  | global {s : Store} (h : Arises s) : Arises s.global.2
  | child {s : Store} {e : ScopeId} (h : Arises s) (there : s.Has (.scope e)) :
      Arises (s.child e).2
  | bind {s : Store} {e : ScopeId} {x : Name} {v : Value} (h : Arises s)
      (there : s.Has (.scope e)) (hv : s.HasValue v) : Arises (s.bind e x v)
  | newClosure {s : Store} {params : List Name} {body : NodeId} {e : ScopeId} {code : Code}
      (h : Arises s) (there : s.Has (.scope e)) : Arises (s.newClosure params body e code).2
  | freeze {s : Store} {a : Arena} (h : Arises s) : Arises (s.freeze a).2
  | eval {s : Store} {it : Interpreter} {n : Nat} {id : NodeId} {k : Sink} (h : Arises s)
      (there : s.Has (.scope it.env)) :
      Arises (Outcome.state (it.evalWith n id ⟨s, k⟩)).store
  | call {s : Store} {it : Interpreter} {n : Nat} {f : Value} {args : List Value} {k : Sink}
      (h : Arises s) (hvs : ∀ v ∈ f :: args, s.HasValue v) :
      Arises (Outcome.state (it.callWith n f args ⟨s, k⟩)).store

theorem wellFormed_empty : ({} : Store).WellFormed := by
  refine ⟨fun e p hp => ?_, fun e x v hv => ?_⟩
  · rw [Store.parent, scope_empty] at hp
    cases hp
  · rw [Store.local?, scope_empty] at hv
    cases hv

theorem WellFormed.global {s : Store} (wf : s.WellFormed) : s.global.2.WellFormed := by
  refine ⟨fun e p hp => ?_, fun e x v hv c hc => ?_⟩
  · rw [Store.parent, scope_global] at hp
    exact wf.ordered e p hp
  · rw [Store.local?, scope_global] at hv
    obtain ⟨hid, henv⟩ := wf.bound e x v hv c hc
    refine ⟨hid, Nat.lt_of_lt_of_le henv ?_⟩
    rw [Store.global, size_alloc]
    exact Nat.le_succ _

theorem holds_all {s : Store} (wf : s.WellFormed) : s.region_all.matching.Holds s s :=
  s.region_all.holds wf

theorem Has.paired {s : Store} {e : ScopeId} (there : s.Has (.scope e)) :
    (s.region_all.matching.upTo s s).scope e e :=
  ⟨⟨rfl, trivial⟩, there, there⟩

theorem HasValue.paired {s : Store} {v : Value} (hv : s.HasValue v) :
    (s.region_all.matching.upTo s s).SameValue v v :=
  s.region_all.sameValue hv fun _ _ => trivial

theorem evalWith_together {s : Store} (wf : s.WellFormed) {it : Interpreter}
    (there : s.Has (.scope it.env)) (n : Nat) (id : NodeId) (k : Sink) :
    s.region_all.matching.Together Matching.SameValue s s (it.evalWith n id ⟨s, k⟩)
      (it.evalWith n id ⟨s, k⟩) :=
  Matching.evalWith_inStep _ n it id (holds_all wf) there.paired k

theorem callWith_together {s : Store} (wf : s.WellFormed) (it : Interpreter) {f : Value}
    {args : List Value} (hvs : ∀ v ∈ f :: args, s.HasValue v) (n : Nat) (k : Sink) :
    s.region_all.matching.Together Matching.SameValue s s (it.callWith n f args ⟨s, k⟩)
      (it.callWith n f args ⟨s, k⟩) :=
  Matching.callWith_lockstep _ n ⟨rfl, rfl, rfl⟩ (holds_all wf)
    (hvs f List.mem_cons_self).paired
    (List.forall₂_same.mpr fun v hv => (hvs v (List.mem_cons_of_mem f hv)).paired) k

/-- Every store that arises is well-formed. -/
theorem Arises.wellFormed {s : Store} (h : s.Arises) : s.WellFormed := by
  induction h with
  | empty => exact wellFormed_empty
  | global _ ih => exact ih.global
  | child _ there ih => exact wellFormed_of_holds ((holds_all ih).child there.paired)
  | bind _ there hv ih => exact wellFormed_of_holds ((holds_all ih).bind there.paired _ hv.paired)
  | newClosure _ _ ih => exact wellFormed_of_holds ((holds_all ih).newClosure _ _ _ _ _)
  | freeze _ ih => exact ⟨ih.ordered, ih.bound⟩
  | eval _ there ih => exact wellFormed_of_holds (evalWith_together ih there _ _ _).holds
  | call _ hvs ih => exact wellFormed_of_holds (callWith_together ih _ hvs _ _).holds

end Store

/-! ### What an evaluation reaches -/

/-- The computation left alone what it could not reach, and reached nothing else but what is new. -/
structure Outcome.Private (roots : Object → Prop) (s : Store) (r : Outcome Value) : Prop where
  unreached : ∀ e, s.Has (.scope e) → ¬ s.Reaches roots (.scope e) →
    r.state.store.scope e = s.scope e
  reached : ∀ o, r.state.store.Reaches (r.rootsWith roots) o →
    s.Reaches roots o ∨ (¬ s.Has o ∧ r.state.store.Has o)
  wellFormed : r.state.store.WellFormed
  result : ∀ v t, r = .ok v t → t.store.HasValue v

/-- A computation that stays in step with itself leaves a well-formed store and a value of it. -/
theorem Outcome.wellFormed_of_together {s : Store} {r : Outcome Value}
    (all : s.region_all.matching.Together Matching.SameValue s s r r) :
    r.state.store.WellFormed ∧ ∀ v t, r = .ok v t → t.store.HasValue v := by
  refine ⟨Store.wellFormed_of_holds all.holds, ?_⟩
  rintro v t rfl c rfl
  cases all.result with
  | closure hc => exact ⟨hc.2.1.1, hc.2.2.1⟩

/-- A computation that stays in step with itself on the objects it can reach is private. -/
theorem Outcome.private_of_together {roots : Object → Prop} {s : Store} {r : Outcome Value}
    (all : s.region_all.matching.Together Matching.SameValue s s r r)
    (h : (s.region_reached roots).matching.Together Matching.SameValue s s r r)
    (paired : ∀ o, roots o → ((s.region_reached roots).matching.upTo s s).SameObject o o) :
    r.Private roots s where
  unreached e he hout := by
    refine h.later.left.spared e he ?_
    rintro ⟨_, _, inside⟩
    exact hout (Store.ReachedOrNew.reaches inside he)
  reached o ho := by
    have hroots : ∀ o, r.rootsWith roots o → ∃ o', r.rootsWith roots o' ∧
        ((s.region_reached roots).matching.upTo r.state.store r.state.store).SameObject o o' := by
      rintro o (hroot | ⟨v, t, rfl, c, rfl, rfl⟩)
      · refine ⟨o, .inl hroot, ?_⟩
        cases paired o hroot with
        | scope he => exact .scope (h.later.within.scope _ _ he)
        | closure hc => exact .closure (h.later.within.closure _ _ hc)
      · refine ⟨_, .inr ⟨_, t, rfl, c, rfl, rfl⟩, ?_⟩
        cases h.result with
        | closure hc => exact .closure hc
    obtain ⟨o', _, same⟩ := h.holds.iso.reaches hroots ho
    obtain ⟨inside, there⟩ := (s.region_reached roots).of_sameObject same
    by_cases old : s.Has o
    · exact .inl (inside.reaches old)
    · exact .inr ⟨old, there⟩
  wellFormed := (wellFormed_of_together all).1
  result := (wellFormed_of_together all).2

/-- Private state is private. Of an evaluation the current scope is the only root, of a call the
called value and the arguments are. Scopes that cannot be reached from the roots stay as they are,
and all that can be reached afterwards, from the roots or from the result, could be reached before
or is new. This holds of every amount of fuel, so it does not matter how the computation ends. -/
theorem private_state {s : Store} (wf : s.WellFormed) (it : Interpreter) (n : Nat) (k : Sink) :
    (∀ id, s.Has (.scope it.env) →
      Outcome.Private (· = .scope it.env) s (it.evalWith n id ⟨s, k⟩)) ∧
    ∀ f args, (∀ v ∈ f :: args, s.HasValue v) →
      Outcome.Private (Value.among (f :: args)) s (it.callWith n f args ⟨s, k⟩) := by
  refine ⟨fun id there => ?_, fun f args hvs => ?_⟩
  · have hregion := s.region_reached (· = .scope it.env)
    have henv : (hregion.matching.upTo s s).scope it.env it.env :=
      ⟨⟨rfl, .inl (.root rfl)⟩, there, there⟩
    refine Outcome.private_of_together (Store.evalWith_together wf there n id k) ?_ ?_
    · exact Matching.evalWith_inStep _ n it id (hregion.holds wf) henv k
    · rintro _ rfl
      exact .scope henv
  · have hregion := s.region_reached (Value.among (f :: args))
    have hsame : ∀ v ∈ f :: args, (hregion.matching.upTo s s).SameValue v v := by
      intro v hv
      refine hregion.sameValue (hvs v hv) ?_
      rintro c rfl
      exact .inl (.root ⟨_, hv, c, rfl, rfl⟩)
    refine Outcome.private_of_together (Store.callWith_together wf it hvs n k) ?_ ?_
    · exact Matching.callWith_lockstep _ n ⟨rfl, rfl, rfl⟩ (hregion.holds wf)
        (hsame f List.mem_cons_self)
        (List.forall₂_same.mpr fun v hv => hsame v (List.mem_cons_of_mem f hv)) k
    · rintro _ ⟨v, hv, c, rfl, rfl⟩
      cases hsame _ hv with
      | closure hc => exact .closure hc

/-- An assignment in the second of two outermost scopes does not change the first. -/
theorem private_state_two_globals :
    let s := ({} : Store).global.2.global.2
    let it : Interpreter :=
      { names := .initial, code := ⟨0, ⟨#[.int 1, .assign .empty ⟨0⟩], #[], #[]⟩⟩, env := 1 }
    (Outcome.state (it.evalWith 2 ⟨1⟩ ⟨s, .buffer #[]⟩)).store.scope 0 = s.scope 0 := by
  intro s it
  have wf : s.WellFormed := Store.wellFormed_empty.global.global
  have hempty : ∀ e, s.scope e = {} := by
    intro e
    rw [Store.scope_global, Store.scope_global, Store.scope_empty]
  have heffect := (private_state wf it 2 (.buffer #[])).1 ⟨1⟩ (show 1 < 2 by decide)
  refine heffect.unreached 0 (show 0 < 2 by decide) fun reached => ?_
  have honly : ∀ o, s.Reaches (· = .scope 1) o → o = .scope 1 := by
    intro o ho
    induction ho with
    | root h => exact h
    | parent _ link _ =>
      rw [Store.parent, hempty] at link
      cases link
    | bound _ link _ =>
      rw [Store.local?, hempty] at link
      cases link
    | captured _ ih => cases ih
  cases honly _ reached

end Treewalk
