import Treewalk.Proofs.Lockstep

/-! Evaluation depends neither on the numbers of scopes and closures nor on what it cannot reach. If
the parts of two stores that can be reached are isomorphic, evaluations in both end alike, and the
parts that can be reached afterwards are isomorphic again by a matching that extends the first. -/

namespace Treewalk

namespace Matching

variable {M : Matching} {s₁ s₂ : Store}

/-! ### Both directions -/

/-- The pairs in the other order. -/
def symm (M : Matching) : Matching where
  scope e₁ e₂ := M.scope e₂ e₁
  closure c₁ c₂ := M.closure c₂ c₁
  scope_iff h h' := (M.scope_iff h h').symm
  id_iff h h' := (M.id_iff h h').symm
  params h := (M.params h).symm
  body h := (M.body h).symm
  code h := (M.code h).symm
  env h := M.env h

theorem SameValue.symm {v₁ v₂ : Value} (h : M.SameValue v₁ v₂) : M.symm.SameValue v₂ v₁ := by
  cases h with
  | closure h => exact .closure h
  | int => exact .int
  | bool => exact .bool
  | null => exact .null

theorem SameObject.symm {o₁ o₂ : Object} (h : M.SameObject o₁ o₂) : M.symm.SameObject o₂ o₁ := by
  cases h with
  | scope h => exact .scope h
  | closure h => exact .closure h

theorem Iso.symm (h : M.Iso s₁ s₂) : M.symm.Iso s₂ s₁ where
  scope_lt e₂ e₁ he := (h.scope_lt e₁ e₂ he).symm
  closure_lt c₂ c₁ hc := (h.closure_lt c₁ c₂ hc).symm
  parent e₂ e₁ he := (h.parent e₁ e₂ he).flip
  vars e₂ e₁ he x := (h.vars e₁ e₂ he x).flip.imp fun _ _ hv => hv.symm

/-! ### Objects to come -/

theorem ne_next {n m k : Nat} (h : m < n) : m ≠ n + k := by
  omega

/-- Pairs also the objects that come next in both stores, in their order. -/
def grown (M : Matching) (h : M.Iso s₁ s₂) : Matching where
  scope e₁ e₂ := M.scope e₁ e₂ ∨ ∃ k, e₁ = s₁.scopes.size + k ∧ e₂ = s₂.scopes.size + k
  closure c₁ c₂ := M.closure c₁ c₂ ∨
    (∃ k, c₁.id = s₁.nextClosure + k ∧ c₂.id = s₂.nextClosure + k) ∧
      c₁.params = c₂.params ∧ c₁.body = c₂.body ∧ c₁.code = c₂.code ∧
      (M.scope c₁.env c₂.env ∨
        ∃ k, c₁.env = s₁.scopes.size + k ∧ c₂.env = s₂.scopes.size + k)
  scope_iff := by
    rintro e₁ e₂ b₁ b₂ (he | ⟨k, rfl, rfl⟩) (hb | ⟨j, rfl, rfl⟩)
    · exact M.scope_iff he hb
    · obtain ⟨hlt₁, hlt₂⟩ := h.scope_lt e₁ e₂ he
      exact iff_of_false (ne_next hlt₁) (ne_next hlt₂)
    · obtain ⟨hlt₁, hlt₂⟩ := h.scope_lt b₁ b₂ hb
      exact iff_of_false (ne_next hlt₁).symm (ne_next hlt₂).symm
    · rw [Nat.add_left_cancel_iff, Nat.add_left_cancel_iff]
  id_iff := by
    rintro c₁ c₂ d₁ d₂ (hc | ⟨⟨k, hk₁, hk₂⟩, _⟩) (hd | ⟨⟨j, hj₁, hj₂⟩, _⟩)
    · exact M.id_iff hc hd
    · have := h.closure_lt c₁ c₂ hc
      omega
    · have := h.closure_lt d₁ d₂ hd
      omega
    · omega
  params := by
    rintro c₁ c₂ (hc | hc)
    · exact M.params hc
    · exact hc.2.1
  body := by
    rintro c₁ c₂ (hc | hc)
    · exact M.body hc
    · exact hc.2.2.1
  code := by
    rintro c₁ c₂ (hc | hc)
    · exact M.code hc
    · exact hc.2.2.2.1
  env := by
    rintro c₁ c₂ (hc | hc)
    · exact .inl (M.env hc)
    · exact hc.2.2.2.2

theorem within_grown_upTo (h : M.Iso s₁ s₂) {t₁ t₂ : Store}
    (later : (M.grown h).Later s₁ s₂ t₁ t₂) : M.Within ((M.grown h).upTo t₁ t₂) where
  scope e₁ e₂ he :=
    have hlt := h.scope_lt e₁ e₂ he
    later.within.scope e₁ e₂ ⟨.inl he, hlt⟩
  closure c₁ c₂ hc :=
    later.within.closure c₁ c₂ ⟨.inl hc, h.closure_lt c₁ c₂ hc, h.scope_lt _ _ (M.env hc)⟩

theorem holds_grown (h : M.Iso s₁ s₂) (ordered₁ : s₁.Ordered) (ordered₂ : s₂.Ordered) :
    (M.grown h).Holds s₁ s₂ where
  iso := by
    have hM := within_grown_upTo h (.refl s₁ s₂)
    have hold : ∀ e₁ e₂, ((M.grown h).upTo s₁ s₂).scope e₁ e₂ → M.scope e₁ e₂ := by
      rintro e₁ e₂ ⟨he | ⟨k, rfl, rfl⟩, hlt, _⟩
      · exact he
      · exact absurd hlt (Nat.not_lt_of_le (Nat.le_add_right _ k))
    refine ⟨fun _ _ he => he.2, fun _ _ hc => hc.2.1, fun e₁ e₂ he => ?_, fun e₁ e₂ he x => ?_⟩
    · exact (h.parent e₁ e₂ (hold e₁ e₂ he)).imp hM.scope
    · exact (h.vars e₁ e₂ (hold e₁ e₂ he) x).imp fun _ _ hv => hv.mono hM
  ordered₁ := ordered₁
  ordered₂ := ordered₂
  nextScope k := .inr ⟨k, rfl, rfl⟩
  nextClosure k params body code e₁ e₂ he := .inr ⟨⟨k, rfl, rfl⟩, rfl, rfl, rfl, he⟩

/-! ### Outcomes -/

/-- Values that correspond, or the same cause to stop. -/
inductive SameResult (M : Matching) : Outcome Value → Outcome Value → Prop where
  | ok {v₁ v₂ : Value} {t₁ t₂ : State} (h : M.SameValue v₁ v₂) :
      SameResult M (.ok v₁ t₁) (.ok v₂ t₂)
  | error {cause : Halt} {t₁ t₂ : State} : SameResult M (.error cause t₁) (.error cause t₂)

/-- The outcomes differ only in the numbers of scopes and closures, and each object that is reached
from the roots or the result of one is paired with one that is reached in the other. -/
structure SameOutcome (M : Matching) (roots₁ roots₂ : Object → Prop) (r₁ r₂ : Outcome Value) :
    Prop where
  result : M.SameResult r₁ r₂
  sink : r₁.state.sink = r₂.state.sink
  iso : M.Iso r₁.state.store r₂.state.store
  forth : ∀ o₁, r₁.state.store.Reaches (r₁.rootsWith roots₁) o₁ →
    ∃ o₂, r₂.state.store.Reaches (r₂.rootsWith roots₂) o₂ ∧ M.SameObject o₁ o₂
  back : ∀ o₂, r₂.state.store.Reaches (r₂.rootsWith roots₂) o₂ →
    ∃ o₁, r₁.state.store.Reaches (r₁.rootsWith roots₁) o₁ ∧ M.SameObject o₁ o₂

/-- The roots of both sides are paired. -/
structure SameRoots (M : Matching) (roots₁ roots₂ : Object → Prop) : Prop where
  forth : ∀ o₁, roots₁ o₁ → ∃ o₂, roots₂ o₂ ∧ M.SameObject o₁ o₂
  back : ∀ o₂, roots₂ o₂ → ∃ o₁, roots₁ o₁ ∧ M.SameObject o₁ o₂

theorem exists_among {vs₁ vs₂ : List Value} (h : List.Forall₂ M.SameValue vs₁ vs₂) {o₁ : Object}
    (ho : Value.among vs₁ o₁) : ∃ o₂, Value.among vs₂ o₂ ∧ M.SameObject o₁ o₂ := by
  obtain ⟨v₁, hmem, c₁, rfl, rfl⟩ := ho
  induction h with
  | nil => cases hmem
  | @cons w₁ w₂ vs₁ vs₂ hw _ ih =>
    rcases List.mem_cons.mp hmem with rfl | hmem
    · cases hw with
      | @closure _ c₂ hc =>
        exact ⟨_, ⟨_, List.mem_cons_self, c₂, rfl, rfl⟩, .closure hc⟩
    · obtain ⟨o₂, ⟨v₂, hmem₂, hv₂⟩, same⟩ := ih hmem
      exact ⟨o₂, ⟨v₂, List.mem_cons_of_mem w₂ hmem₂, hv₂⟩, same⟩

theorem SameRoots.of_values {vs₁ vs₂ : List Value} (h : List.Forall₂ M.SameValue vs₁ vs₂) :
    M.SameRoots (Value.among vs₁) (Value.among vs₂) where
  forth _ ho := exists_among h ho
  back _ ho := by
    obtain ⟨o₁, ho₁, same⟩ := exists_among (M := M.symm) (h.flip.imp fun _ _ hv => hv.symm) ho
    exact ⟨o₁, ho₁, same.symm⟩

theorem SameObject.mono {M' : Matching} {o₁ o₂ : Object} (h : M.SameObject o₁ o₂)
    (hM : M.Within M') : M'.SameObject o₁ o₂ := by
  cases h with
  | scope h => exact .scope (hM.scope _ _ h)
  | closure h => exact .closure (hM.closure _ _ h)

/-- The result of each side is paired with the result of the other. -/
theorem SameRoots.withResult {M' : Matching} {roots₁ roots₂ : Object → Prop}
    {r₁ r₂ : Outcome Value} (h : M.SameRoots roots₁ roots₂) (hM : M.Within M')
    (result : M'.SameResult r₁ r₂) :
    M'.SameRoots (r₁.rootsWith roots₁) (r₂.rootsWith roots₂) where
  forth := by
    rintro o₁ (hroot | ⟨v, t, rfl, c, rfl, rfl⟩)
    · obtain ⟨o₂, hroot₂, same⟩ := h.forth o₁ hroot
      exact ⟨o₂, .inl hroot₂, same.mono hM⟩
    · cases result with
      | ok hv =>
        cases hv with
        | @closure _ c₂ hc => exact ⟨_, .inr ⟨_, _, rfl, c₂, rfl, rfl⟩, .closure hc⟩
  back := by
    rintro o₂ (hroot | ⟨v, t, rfl, c, rfl, rfl⟩)
    · obtain ⟨o₁, hroot₁, same⟩ := h.back o₂ hroot
      exact ⟨o₁, .inl hroot₁, same.mono hM⟩
    · cases result with
      | ok hv =>
        cases hv with
        | @closure c₁ _ hc => exact ⟨_, .inr ⟨_, _, rfl, c₁, rfl, rfl⟩, .closure hc⟩

/-- An extension of the matching makes the outcomes the same. -/
def Continues (M : Matching) (roots₁ roots₂ : Object → Prop) (r₁ r₂ : Outcome Value) : Prop :=
  ∃ M' : Matching, M.Within M' ∧ M'.SameOutcome roots₁ roots₂ r₁ r₂

theorem Together.continues {roots₁ roots₂ : Object → Prop} {r₁ r₂ : Outcome Value}
    (h : M.Iso s₁ s₂) (together : (M.grown h).Together SameValue s₁ s₂ r₁ r₂)
    (roots : M.SameRoots roots₁ roots₂) : M.Continues roots₁ roots₂ r₁ r₂ := by
  have hM := within_grown_upTo h together.later
  have iso := together.holds.iso
  have result : ((M.grown h).upTo r₁.state.store r₂.state.store).SameResult r₁ r₂ := by
    cases together with
    | ok _ _ hv => exact .ok hv
    | error => exact .error
  have hroots := roots.withResult hM result
  refine ⟨_, hM, result, together.sink_eq, iso, fun o₁ ho => ?_, fun o₂ ho => ?_⟩
  · exact iso.reaches hroots.forth ho
  · have hback : ∀ o₂, r₂.rootsWith roots₂ o₂ → ∃ o₁, r₁.rootsWith roots₁ o₁ ∧ _ :=
      fun o₂ ho => (hroots.back o₂ ho).imp fun _ h => ⟨h.1, h.2.symm⟩
    obtain ⟨o₁, ho₁, same⟩ := iso.symm.reaches hback ho
    exact ⟨o₁, ho₁, same.symm⟩

/-- Computations that stay in step with every amount of fuel end alike. -/
theorem endAlike_of_lockstep {m₁ m₂ : Nat → EvalM Value}
    (below₁ : ∀ {n j}, n ≤ j → EvalM.Below (m₁ n) (m₁ j))
    (below₂ : ∀ {n j}, n ≤ j → EvalM.Below (m₂ n) (m₂ j))
    (h : ∀ n, M.Lockstep SameValue s₁ s₂ (m₁ n) (m₂ n)) (k : Sink) :
    EndAlike (M.Together SameValue s₁ s₂) (EvalM.Ends m₁ ⟨s₁, k⟩) (EvalM.Ends m₂ ⟨s₂, k⟩) :=
  EvalM.Ends.alike below₁ below₂ (fun n => h n k) fun _ _ together => together.finished

end Matching

/-- Evaluation in isomorphic stores. The matching `M` need only pair the objects that can be reached
from the scopes `e₁` and `e₂`, or from the called values and the arguments: of a call, neither the
scope nor the code of the caller matters. -/
theorem isomorphic_stores (M : Matching) {s₁ s₂ : Store} (iso : M.Iso s₁ s₂)
    (ordered₁ : s₁.Ordered) (ordered₂ : s₂.Ordered) (it : Interpreter) (k : Sink) :
    (∀ id e₁ e₂, M.scope e₁ e₂ →
      EndAlike (M.Continues (· = .scope e₁) (· = .scope e₂)) ((it.inScope e₁).Ends id ⟨s₁, k⟩)
        ((it.inScope e₂).Ends id ⟨s₂, k⟩)) ∧
    ∀ it' f₁ f₂ args₁ args₂, it.SameCaller it' → M.SameValue f₁ f₂ →
      List.Forall₂ M.SameValue args₁ args₂ →
      EndAlike (M.Continues (Value.among (f₁ :: args₁)) (Value.among (f₂ :: args₂)))
        (it.CallEnds f₁ args₁ ⟨s₁, k⟩) (it'.CallEnds f₂ args₂ ⟨s₂, k⟩) := by
  have holds := Matching.holds_grown iso ordered₁ ordered₂
  have hM := Matching.within_grown_upTo iso (.refl s₁ s₂)
  refine ⟨fun id e₁ e₂ he => ?_, fun it' f₁ f₂ args₁ args₂ same hf hargs => ?_⟩
  · have steps := fun n => Matching.evalWith_inStep (M.grown iso) n it id holds (hM.scope _ _ he)
    have alike := Matching.endAlike_of_lockstep (fun h => Interpreter.evalWith_below h _ id)
      (fun h => Interpreter.evalWith_below h _ id) steps k
    refine alike.mono fun r₁ r₂ together => together.continues iso ⟨?_, ?_⟩
    · rintro _ rfl
      exact ⟨_, rfl, .scope he⟩
    · rintro _ rfl
      exact ⟨_, rfl, .scope he⟩
  · have steps := fun n => Matching.callWith_lockstep (M.grown iso) n same holds (hf.mono hM)
      (hargs.imp fun _ _ hv => hv.mono hM)
    have alike := Matching.endAlike_of_lockstep (fun h => Interpreter.callWith_below h _ f₁ args₁)
      (fun h => Interpreter.callWith_below h _ f₂ args₂) steps k
    refine alike.mono fun r₁ r₂ together => together.continues iso ?_
    exact .of_values (.cons hf hargs)

/-- A closure and a copy of it under another identity, with the scopes that the two captured. -/
def Matching.copy (c : Closure) (id : Nat) (e : ScopeId) : Matching where
  scope e₁ e₂ := e₁ = c.env ∧ e₂ = e
  closure c₁ c₂ := c₁ = c ∧ c₂ = { c with id := id, env := e }
  scope_iff := by
    rintro _ _ _ _ ⟨rfl, rfl⟩ ⟨rfl, rfl⟩
    exact iff_of_true rfl rfl
  id_iff := by
    rintro _ _ _ _ ⟨rfl, rfl⟩ ⟨rfl, rfl⟩
    exact iff_of_true rfl rfl
  params := by
    rintro _ _ ⟨rfl, rfl⟩
    rfl
  body := by
    rintro _ _ ⟨rfl, rfl⟩
    rfl
  code := by
    rintro _ _ ⟨rfl, rfl⟩
    rfl
  env := by
    rintro _ _ ⟨rfl, rfl⟩
    exact ⟨rfl, rfl⟩

/-- A closure that is bound in the scope that it captured and gives itself, called by an expression
there and by a host program, beside a copy of it in a store that has another scope and another
closure before. -/
theorem isomorphic_stores_globals :
    let code : Code := ⟨0, ⟨#[.ident .empty, .call ⟨0⟩ .empty], #[], #[]⟩⟩
    let c : Closure := ⟨0, [], ⟨0⟩, 0, code⟩
    let c' : Closure := ⟨1, [], ⟨0⟩, 1, code⟩
    let s : Store := ⟨#[⟨[(.empty, .closure c)], none⟩], 1, 1⟩
    let s' : Store := ⟨#[{}, ⟨[(.empty, .closure c')], none⟩], 2, 1⟩
    let it : Interpreter := { names := .initial, code := code, env := 0 }
    let M := Matching.copy c 1 1
    M.SameValue (.closure c) (.closure c') ∧
    (∃ t, (it.inScope 0).Ends ⟨1⟩ ⟨s, .buffer #[]⟩ (.ok (.closure c) t)) ∧
    EndAlike (M.Continues (· = .scope 0) (· = .scope 1))
      ((it.inScope 0).Ends ⟨1⟩ ⟨s, .buffer #[]⟩) ((it.inScope 1).Ends ⟨1⟩ ⟨s', .buffer #[]⟩) ∧
    EndAlike (M.Continues (Value.among [.closure c]) (Value.among [.closure c']))
      (it.CallEnds (.closure c) [] ⟨s, .buffer #[]⟩)
      (it.CallEnds (.closure c') [] ⟨s', .buffer #[]⟩) := by
  intro code c c' s s' it M
  have same : M.SameValue (.closure c) (.closure c') := .closure ⟨rfl, rfl⟩
  have ordered : s.Ordered := by
    rintro (_ | e) p ⟨⟩
  have ordered' : s'.Ordered := by
    rintro (_ | _ | e) p ⟨⟩
  have iso : M.Iso s s' := by
    refine ⟨?_, ?_, ?_, ?_⟩
    · rintro _ _ ⟨rfl, rfl⟩
      exact ⟨show 0 < 1 by decide, show 1 < 2 by decide⟩
    · rintro _ _ ⟨rfl, rfl⟩
      exact ⟨show 0 < 1 by decide, show 1 < 2 by decide⟩
    · rintro _ _ ⟨rfl, rfl⟩
      exact .none
    · rintro _ _ ⟨rfl, rfl⟩ x
      show Option.Rel M.SameValue (List.lookup x [(.empty, .closure c)])
        (List.lookup x [(.empty, .closure c')])
      rw [List.lookup_cons, List.lookup_cons]
      cases x == Name.empty with
      | true => exact .some same
      | false => exact .none
  have alike := isomorphic_stores M iso ordered ordered' it (.buffer #[])
  have evaluated : (it.inScope 0).evalWith 3 ⟨1⟩ ⟨s, .buffer #[]⟩ =
      .ok (.closure c) ⟨(s.child 0).2, .buffer #[]⟩ := by
    with_unfolding_all rfl
  refine ⟨same, ⟨_, Interpreter.ends_of_evalWith evaluated trivial⟩, ?_, ?_⟩
  · exact alike.1 ⟨1⟩ 0 1 ⟨rfl, rfl⟩
  · exact alike.2 it _ _ [] [] ⟨rfl, rfl, rfl⟩ same .nil

end Treewalk
