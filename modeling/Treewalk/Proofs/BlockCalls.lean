import Treewalk.Proofs.Calls
import Treewalk.Proofs.Simulation

/-! A block beside a function of no parameters that is called at once. Both evaluate their body in a
new scope. The function makes a closure, which nobody gets to see, and its body runs one call
deeper. So the numbers of closures that are made inside differ by one, and the call meets a limit
before the block does. -/

namespace Treewalk

/-! ### Without a limit -/

namespace Interpreter

/-- The same interpreter without a limit, inside `d` calls. -/
def unlimited (it : Interpreter) (d : Nat) : Interpreter := { it with limit := none, depth := d }

variable {ev : Interpreter → NodeId → EvalM Value}

theorem declareParams_unlimited (it : Interpreter) (d d' : Nat) (scope : ScopeId) (xs : List Name)
    (vs : List Value) :
    (it.unlimited d).declareParams scope xs vs = (it.unlimited d').declareParams scope xs vs := by
  induction xs generalizing vs with
  | nil => rfl
  | cons x xs ih =>
    cases vs with
    | nil => rfl
    | cons v vs => exact bind_congr fun _ => ih vs

theorem apply_unlimited
    (h : ∀ (it : Interpreter) d d', ev (it.unlimited d) = ev (it.unlimited d')) (it : Interpreter)
    (d d' : Nat) (c : Closure) (args : List Value) :
    (it.unlimited d).apply ev c args = (it.unlimited d').apply ev c args := by
  unfold apply
  split
  · refine bind_congr fun _ => bind_congr fun scope => ?_
    rw [declareParams_unlimited it d d']
    exact bind_congr fun _ => congrFun (h (it.enter c scope) (d + 1) (d' + 1)) c.body
  · rfl

theorem evalNode_unlimited
    (h : ∀ (it : Interpreter) d d', ev (it.unlimited d) = ev (it.unlimited d')) (it : Interpreter)
    (d d' : Nat) (n : Nat) (node : Node) :
    (it.unlimited d).evalNode ev n node = (it.unlimited d').evalNode ev n node := by
  cases node with
  | int | bool | null | ident | function => rfl
  | block e =>
    exact bind_congr fun scope => congrFun (h { it with env := scope } d d') e
  | call f span =>
    simp only [evalNode, h it d d']
    refine bind_congr fun v => ?_
    cases v with
    | closure c =>
      refine bind_congr fun ids => bind_congr fun args => ?_
      exact apply_unlimited h it d d' c args
    | _ => rfl
  | declare | assign =>
    simp only [evalNode, h it d d']
    rfl
  | _ => simp only [evalNode, h it d d']

/-- Without a limit, the number of calls around an evaluation does not matter. -/
theorem evalWith_unlimited (n : Nat) (it : Interpreter) (d d' : Nat) :
    (it.unlimited d).evalWith n = (it.unlimited d').evalWith n := by
  induction n generalizing it d d' with
  | zero => rfl
  | succ n ih =>
    funext id
    rw [evalWith_succ, evalWith_succ]
    unfold evalStep
    split
    · exact bind_congr fun node => evalNode_unlimited ih it d d' n node
    · rfl

end Interpreter

/-! ### One closure more -/

/-- The closure with the first number in one run corresponds to that with the second number in
another, if the first run makes one closure more, with the number `n`. -/
def Skips (n i j : Nat) : Prop := i < n ∧ i = j ∨ n < i ∧ i = j + 1

theorem Skips.eq_iff {n i₁ i₂ j₁ j₂ : Nat} (h : Skips n i₁ i₂) (h' : Skips n j₁ j₂) :
    i₁ = j₁ ↔ i₂ = j₂ := by
  unfold Skips at h h'
  omega

/-- Values that are equal, or closures that differ at most in their numbers, and in these only as
far as the closure with the number `n` is left out. -/
abbrev Value.SameBut (n : Nat) : Value → Value → Prop := Value.Alike (Closure.Alike (Skips n) Eq)

/-- The runs gave the same or failed for the same cause, they printed the same lines, and they left
the same scopes with the same variables. -/
structure Outcome.SameBut (n : Nat) (r₁ r₂ : Outcome Value) : Prop where
  result : r₁.Alike (Value.SameBut n) r₂
  sink : r₁.state.sink = r₂.state.sink
  store : r₁.state.store.Alike (Value.SameBut n) r₂.state.store

namespace Simulation

variable {n : Nat} {k : Sink} {r₁ r₂ : Outcome Value}

/-- How a run that makes one closure more, with the number `n`, compares with one that does not. If
it is inside more calls, then it may meet the limit first. -/
def skipping (n ahead : Nat) : Simulation where
  __ := identity
  number := Skips n
  excused cause := ahead ≠ 0 ∧ ∃ limit, cause = .error (.stackOverflow limit)
  ahead := ahead
  number_iff h h' := h.eq_iff h'
  node h id := .inr ((identity.node h id).resolve_left And.left)
  arguments h span := .inr ((identity.arguments h span).resolve_left And.left)
  parameters h span := .inr ((identity.parameters h span).resolve_left And.left)
  overflow := by
    by_cases h : ahead = 0
    · exact .inl h
    · exact .inr fun limit => ⟨h, limit, rfl⟩

theorem sameBut_of_together {ahead : Nat}
    (h : (skipping n ahead).Together (Value.SameBut n) k k r₁ r₂)
    (unexcused : ∀ cause t, r₁ = .error cause t → ¬ (skipping n ahead).excused cause) :
    r₁.SameBut n r₂ := by
  cases h with
  | ok out _ holds printed result =>
    cases printed
    exact ⟨.ok result, rfl, holds.stores⟩
  | error out _ holds printed =>
    cases printed
    exact ⟨.error, rfl, holds.stores⟩
  | excuse excused => exact absurd excused (unexcused _ _ rfl)

end Simulation

/-- Where no name is bound twice, every binding that is listed is found. -/
theorem Scope.get?_of_mem {sc : Scope} (distinct : (sc.bindings.map Prod.fst).Nodup) {x : Name}
    {v : Value} (h : (x, v) ∈ sc.bindings) : sc.get? x = some v := by
  obtain ⟨before, after, hsplit⟩ := List.append_of_mem h
  rw [hsplit, List.map_append, List.nodup_append] at distinct
  refine List.lookup_eq_some_iff.mpr ⟨before, after, hsplit, fun p hp => ?_⟩
  have hne : p.1 ≠ x := distinct.2.2 p.1 (List.mem_map_of_mem hp) x List.mem_cons_self
  simpa using hne.symm

/-- In every state that comes about, a closure can be made without notice. -/
theorem Holding.Recorded.skipping {h : Holding} {w : Ledger} (rec : h.Recorded w) (ahead : Nat)
    (params : List Name) (body : NodeId) (env : ScopeId) (code : Code) :
    (Simulation.skipping h.store.nextClosure ahead).Holds
      (h.store.newClosure params body env code).2 h.store where
  stores := by
    refine ⟨rfl, fun e => ⟨rfl, List.forall₂_same.mpr fun p hp => ⟨rfl, ?_⟩⟩, rfl⟩
    have hbound : h.store.local? e p.1 = some p.2 :=
      Scope.get?_of_mem (rec.fits.distinct e) hp
    have hlists := rec.fits.bound e p.1 p.2 hbound
    cases hv : p.2 with
    | closure c =>
      have hid : c.id < h.store.nextClosure := by
        rw [rec.fits.nextClosure]
        exact (List.getElem?_eq_some_iff.mp (hlists c hv).entry).1
      exact .closure ⟨.inl ⟨hid, rfl⟩, rfl, rfl, rfl, rfl⟩
    | _ => exact .of_data rfl
  nextClosure k := by
    refine .inr ⟨?_, ?_⟩
    · show h.store.nextClosure < h.store.nextClosure + 1 + k
      omega
    · show h.store.nextClosure + 1 + k = h.store.nextClosure + k + 1
      omega

/-! ### Blocks and calls -/

namespace Interpreter

variable {it : Interpreter} {s : State} {r : Outcome Value} {id body : NodeId}

/-- A block ends as its body does in the new scope. -/
theorem ends_block_iff (hold : it.code.arena.Holds id (.block body)) :
    it.Ends id s r ↔ Ends { it with env := s.store.scopes.size } body
      { s with store := (s.store.child it.env).2 } r := by
  refine EvalM.Ends.iff_succ.trans (EvalM.Ends.iff_of_eq (n := 0) fun k _ => ?_)
  rw [evalWith_holds hold]
  rfl

theorem ends_function {span : Span} {params : List Name}
    (hold : it.code.arena.Holds id (.function span body))
    (hparams : it.code.arena.parameters? span = some params) (s : State) :
    it.Ends id s (.ok (.closure (s.store.newClosure params body it.env it.code).1)
      { s with store := (s.store.newClosure params body it.env it.code).2 }) := by
  refine ends_of_evalWith (n := 1) ?_ trivial
  rw [evalWith_holds hold, evalNode, hparams]
  rfl

section Called

variable {call literal : NodeId} {args params : Span}

/-- A function of no parameters that is called at once makes a closure and calls it. -/
theorem ends_called_iff (hcall : it.code.arena.Holds call (.call literal args))
    (hargs : it.code.arena.arguments? args = some [])
    (hliteral : it.code.arena.Holds literal (.function params body))
    (hparams : it.code.arena.parameters? params = some []) :
    it.Ends call s r ↔
      it.CallEnds (.closure (s.store.newClosure [] body it.env it.code).1) []
        { s with store := (s.store.newClosure [] body it.env it.code).2 } r := by
  refine ends_call_iff hcall hargs (ends_function hliteral hparams s) ?_
  exact .of_eq trivial fun _ => rfl

/-- With room for the call, it ends as the body does in a new scope, one call deeper. -/
theorem callEnds_newClosure_iff (room : ∀ k, it.limit = some k → it.depth < k) :
    it.CallEnds (.closure (s.store.newClosure [] body it.env it.code).1) []
        { s with store := (s.store.newClosure [] body it.env it.code).2 } r ↔
      Ends { it with env := s.store.scopes.size, depth := it.depth + 1 } body
        { s with store := ((s.store.newClosure [] body it.env it.code).2.child it.env).2 } r :=
  callEnds_iff_of_opened (openCall_distinct rfl room List.nodup_nil _)

end Called

/-- Without a limit, evaluations end in the same outcomes inside any number of calls. -/
theorem ends_depth_iff (it : Interpreter) (unbounded : it.limit = none) (d : Nat) :
    Ends { it with depth := d } body s r ↔ it.Ends body s r := by
  have hdepth : ∀ d, ({ it with depth := d } : Interpreter) = it.unlimited d := by
    intro d
    rw [unlimited, ← unbounded]
  refine EvalM.Ends.iff_of_eq (n := 0) fun k _ => ?_
  rw [hdepth d, evalWith_unlimited k it d it.depth, ← hdepth it.depth]

end Interpreter

/-- A block and a function of no parameters that is called at once agree, in every state that comes
about. If the call ends, and not because of the limit on calls, then the block ends with the same
result, after the same lines, and with the same variables in all scopes; only closures that are made
inside have other numbers, as the called function has a number too, but these correspond one to one.
Without a limit, each of the two ends if the other does. -/
theorem block_as_call {h : Holding} (arises : h.Arises) {it : Interpreter} (k : Sink)
    {block call literal body : NodeId} {args params : Span}
    (hblock : it.code.arena.Holds block (.block body))
    (hcall : it.code.arena.Holds call (.call literal args))
    (hargs : it.code.arena.arguments? args = some [])
    (hliteral : it.code.arena.Holds literal (.function params body))
    (hparams : it.code.arena.parameters? params = some []) :
    (∀ r₁, it.Ends call ⟨h.store, k⟩ r₁ →
      (∀ limit t, r₁ ≠ .error (.error (.stackOverflow limit)) t) →
      ∃ r₂, it.Ends block ⟨h.store, k⟩ r₂ ∧ r₁.SameBut h.store.nextClosure r₂) ∧
    (it.limit = none →
      EndAlike (Outcome.SameBut h.store.nextClosure) (it.Ends call ⟨h.store, k⟩)
        (it.Ends block ⟨h.store, k⟩)) ∧
    ∀ i₁ i₂ j₁ j₂, Skips h.store.nextClosure i₁ i₂ → Skips h.store.nextClosure j₁ j₂ →
      (i₁ = j₁ ↔ i₂ = j₂) := by
  obtain ⟨w, rec⟩ := arises.recorded
  have hcalled := fun r => Interpreter.ends_called_iff (s := ⟨h.store, k⟩) (r := r) hcall hargs
    hliteral hparams
  have holds := fun ahead => (rec.skipping ahead [] body it.env it.code).child it.env
  refine ⟨fun r₁ ends other => ?_, fun unbounded => ?_, fun _ _ _ _ => Skips.eq_iff⟩
  · rw [hcalled] at ends
    have room := Interpreter.room_of_callEnds ends rfl other
    rw [Interpreter.callEnds_newClosure_iff room] at ends
    have same : (Simulation.skipping h.store.nextClosure 1).SameScope
        { it with env := h.store.scopes.size, depth := it.depth + 1 }
        { it with env := h.store.scopes.size } := ⟨⟨rfl, rfl, rfl⟩, rfl, rfl⟩
    have unexcused : ∀ cause t, r₁ = .error cause t →
        ¬ (Simulation.skipping h.store.nextClosure 1).excused cause := by
      rintro _ t hr ⟨-, limit, rfl⟩
      exact other limit t hr
    obtain ⟨r₂, ends₂, together⟩ := (holds 1).forth same ends unexcused
    exact ⟨r₂, (Interpreter.ends_block_iff hblock).mpr ends₂,
      Simulation.sameBut_of_together together unexcused⟩
  · have room : ∀ k, it.limit = some k → it.depth < k := by
      rw [unbounded]
      rintro _ ⟨⟩
    have same : (Simulation.skipping h.store.nextClosure 0).SameScope
        { it with env := h.store.scopes.size } { it with env := h.store.scopes.size } :=
      ⟨⟨rfl, rfl, rfl⟩, rfl, rfl⟩
    have unexcused : ∀ cause, ¬ (Simulation.skipping h.store.nextClosure 0).excused cause :=
      fun _ excused => excused.1 rfl
    have alike := (holds 0).endAlike same unexcused body k k
    refine (alike.mono fun r₁ r₂ together => ?_).congr (fun r => ?_) fun r => ?_
    · exact Simulation.sameBut_of_together together fun cause _ _ => unexcused cause
    · -- one call deeper or not, the body ends in the same outcomes
      rw [hcalled, Interpreter.callEnds_newClosure_iff room]
      exact Interpreter.ends_depth_iff { it with env := h.store.scopes.size } unbounded
        (it.depth + 1)
    · exact Interpreter.ends_block_iff hblock

/-- The body prints a line and makes a closure. That closure is the second one if the body is called
and the first one if it is a block. -/
theorem block_as_call_closure :
    let code : Code := ⟨0, ⟨#[.int 7, .print ⟨0⟩, .function .empty .absent, .seq ⟨1⟩ ⟨2⟩,
      .block ⟨3⟩, .function .empty ⟨3⟩, .call ⟨5⟩ .empty], #[], #[]⟩⟩
    let it : Interpreter := { names := .initial, code := code, env := 0 }
    let s : State := ⟨({} : Store).global.2, .buffer #[]⟩
    ∃ c₁ t₁ c₂ t₂, it.Ends ⟨6⟩ s (.ok (.closure c₁) t₁) ∧ it.Ends ⟨4⟩ s (.ok (.closure c₂) t₂) ∧
      c₁.id = 1 ∧ c₂.id = 0 ∧ t₁.sink = t₂.sink := by
  intro code it s
  have opened : Holding.Arises _ := .single (.global {})
  have hrun : it.evalWith 5 ⟨6⟩ s = .ok (.closure ⟨1, [], .absent, 1, code⟩)
      (Outcome.state (it.evalWith 5 ⟨6⟩ s)) := rfl
  have ends : it.Ends ⟨6⟩ s _ := Interpreter.ends_of_evalWith hrun trivial
  have hblock : it.code.arena.Holds ⟨4⟩ (.block ⟨3⟩) := ⟨rfl, rfl⟩
  have hcall : it.code.arena.Holds ⟨6⟩ (.call ⟨5⟩ .empty) := ⟨rfl, rfl⟩
  have hliteral : it.code.arena.Holds ⟨5⟩ (.function .empty ⟨3⟩) := ⟨rfl, rfl⟩
  obtain ⟨r₂, ends₂, result, hsink, -⟩ :=
    (block_as_call opened (.buffer #[]) hblock hcall rfl hliteral rfl).1 _ ends nofun
  cases result with
  | @ok _ v₂ _ t₂ hv =>
    cases hv with
    | @closure _ c₂ hc =>
      have hid : Skips 0 1 c₂.id := hc.id
      refine ⟨_, _, c₂, t₂, ends, ends₂, rfl, ?_, hsink⟩
      unfold Skips at hid
      omega

end Treewalk
