import Treewalk.Proofs.Ending
import Treewalk.Proofs.Representation

/-! The effects of evaluation on states that represent memories: what each small step of an
evaluator does to a state is what the rules do to the memory it represents. -/

namespace Treewalk

/-- The outcome represents what the rules allow: the same error, or a value that represents the
datum, in a state that represents the memory. -/
inductive Outcome.Represents (names : Interner) (k : Sink) :
    Outcome Value → Except EvalError Datum × Memory → Prop where
  | ok {v : Value} {s : State} {d : Datum} {μ : Memory} (value : v.Represents names s.store d)
      (state : s.Represents names k μ) : Outcome.Represents names k (.ok v s) (.ok d, μ)
  | error {c : EvalError} {s : State} {μ : Memory} (state : s.Represents names k μ) :
      Outcome.Represents names k (.error (.error c) s) (.error c, μ)

namespace Interpreter

variable {it : Interpreter} {s : State} {id : NodeId} {n : Nat}

/-! ### Nodes -/

theorem evalWith_holds {node : Node} (h : it.code.arena.Holds id node) :
    it.evalWith (n + 1) id = it.evalNode (evalWith n) n node := by
  rw [evalWith_succ, evalStep, if_pos h.present, h.stored]
  rfl

theorem ends_absent (it : Interpreter) {id : NodeId} (absent : id.isPresent = false) (s : State) :
    it.Ends id s (.ok .null s) := by
  refine ends_of_evalWith (n := 1) ?_ trivial
  rw [evalWith_succ, evalStep, if_neg (by simp [absent])]
  rfl

/-- What is left of a call whose callee and first arguments have their values. -/
def callRest (ev : Interpreter → NodeId → EvalM Value) (it : Interpreter) (c : Closure)
    (values : List Value) (ids : List NodeId) : EvalM Value := do
  let rest ← ids.mapM (ev it)
  apply ev it c (values ++ rest)

variable {ev : Interpreter → NodeId → EvalM Value} {c : Closure} {values : List Value}

theorem callRest_nil : callRest ev it c values [] = apply ev it c values := by
  simp [callRest]

theorem callRest_cons {ids : List NodeId} :
    callRest ev it c values (id :: ids) =
      ev it id >>= fun v => callRest ev it c (values ++ [v]) ids := by
  simp [callRest, List.mapM_cons]

theorem evalNode_call {f : NodeId} {span : Span} {ids : List NodeId}
    (h : it.code.arena.arguments? span = some ids) :
    it.evalNode ev n (.call f span) = ev it f >>= fun v =>
      match v with
      | .closure c => callRest ev it c [] ids
      | other => EvalM.fail (.notCallable other.typeName) := by
  simp only [evalNode, h]
  rfl

/-! ### Declarations -/

theorem declareIn_run (it : Interpreter) (e : ScopeId) (x : Name) (v : Value) (s : State) :
    it.declareIn e x v s =
      if s.store.bindsLocally e x then
        .error (.error (.duplicateDeclaration (it.names.lookup x))) s
      else .ok () { s with store := s.store.bind e x v } := by
  simp only [declareIn, Bind.bind, EStateM.bind, EvalM.onStore, Store.declare]
  split <;> rfl

/-- A declaration reads the name back. -/
theorem declare_run (it : Interpreter) (x : Name) (v : Value) (s : State) :
    (do it.declareIn it.env x v; it.lookup x : EvalM Value) s =
      if s.store.bindsLocally it.env x then
        .error (.error (.duplicateDeclaration (it.names.lookup x))) s
      else .ok (((s.store.bind it.env x v).resolve it.env x).getD .null)
        { s with store := s.store.bind it.env x v } := by
  simp only [Bind.bind, EStateM.bind, declareIn_run]
  by_cases taken : s.store.bindsLocally it.env x
  · simp only [if_pos taken]
  · simp only [if_neg taken]
    rfl

/-! ### Calls -/

theorem checkLimit_of_le {k : Nat} (bound : it.limit = some k) (deep : k ≤ it.depth) :
    it.checkLimit = EvalM.fail (.stackOverflow k) := by
  unfold checkLimit
  rw [bound]
  exact if_pos deep

theorem checkLimit_of_room (room : ∀ k, it.limit = some k → it.depth < k) :
    it.checkLimit = pure () := by
  unfold checkLimit
  cases hlimit : it.limit with
  | some k => exact if_neg (Nat.not_le_of_lt (room k hlimit))
  | none => rfl

theorem apply_arity (h : values.length ≠ c.arity) (s : State) :
    apply ev it c values s = .error (.error (.arityMismatch c.arity values.length)) s := by
  unfold apply
  rw [if_neg h]
  rfl

theorem apply_overflow {k : Nat} (h : values.length = c.arity) (bound : it.limit = some k)
    (deep : k ≤ it.depth) (s : State) :
    apply ev it c values s = .error (.error (.stackOverflow k)) s := by
  unfold apply
  rw [if_pos h, checkLimit_of_le bound deep]
  rfl

theorem apply_room (h : values.length = c.arity) (room : ∀ k, it.limit = some k → it.depth < k)
    (s : State) :
    apply ev it c values s =
      (it.declareParams s.store.scopes.size c.params values >>= fun _ =>
        ev (it.enter c s.store.scopes.size) c.body)
        { s with store := (s.store.child c.env).2 } := by
  unfold apply
  rw [if_pos h, checkLimit_of_room room]
  rfl

end Interpreter

namespace State.Represents

variable {names : Interner} {k : Sink} {s : State} {μ : Memory}

theorem withStore {store : Store} {μ' : Memory} (h : s.Represents names k μ)
    (hs : store.Represents names μ') (output : μ'.output = μ.output) :
    State.Represents names k { s with store := store } μ' :=
  ⟨hs, by rw [output]; exact h.sink⟩

theorem print (h : s.Represents names k μ) {v : Value} {d : Datum}
    (hv : v.Represents names s.store d) :
    State.Represents names k { s with sink := s.sink.writeLine v.display } (μ.print d.display) :=
  ⟨⟨h.store.size, h.store.lambdas, h.store.vars, h.store.bound, h.store.named⟩, by
    rw [hv.display, h.sink, Memory.print, List.foldl_append]
    rfl⟩

end State.Represents

/-- Parameters are declared as the rules say, up to the first that is declared already. -/
theorem Interpreter.declareParams_represents {it : Interpreter} (wf : it.names.WellFormed)
    {k : Sink} (e : ScopeId) {xs : List Name} {ps : List String} {vs : List Value}
    {ds : List Datum} {s : State} {μ : Memory} (hs : s.Represents it.names k μ)
    (hxs : List.Forall₂ (fun x p => it.names.get? x = some p) xs ps)
    (hvs : List.Forall₂ (Value.Represents it.names s.store) vs ds) :
    ∃ s', s'.Represents it.names k (μ.declareAll e (ps.zip ds)).2 ∧ s.store.Grows s'.store ∧
      it.declareParams e xs vs s =
        match (μ.declareAll e (ps.zip ds)).1 with
        | none => .ok () s'
        | some p => .error (.error (.duplicateDeclaration p)) s' := by
  induction hxs generalizing vs ds s μ with
  | nil => exact ⟨s, hs, .refl _, rfl⟩
  | @cons x p xs ps hx hxs ih =>
    cases hvs with
    | nil => exact ⟨s, hs, .refl _, rfl⟩
    | @cons v d vs ds hv hvs =>
      simp only [List.zip_cons_cons, Memory.declareAll, declareParams, Bind.bind, EStateM.bind,
        declareIn_run, hs.store.bindsLocally hx e]
      split
      · refine ⟨s, hs, .refl _, ?_⟩
        simp only [Interner.lookup_of_get? hx]
      · have hs' : State.Represents it.names k { s with store := s.store.bind e x v }
            (μ.set e p d) := hs.withStore (hs.store.bind wf hx hv e) rfl
        have grown : s.store.Grows (s.store.bind e x v) := .bind s.store e x v
        obtain ⟨s'', hs'', grown', hrun⟩ := ih hs' (hvs.imp fun _ _ h => h.grows grown)
        exact ⟨s'', hs'', grown.trans grown', hrun⟩

/-- With room for the call, its parameters are declared in a new scope before its body runs there.
-/
theorem Interpreter.apply_represents {it : Interpreter} (wf : it.names.WellFormed) {k : Sink}
    {c : Closure} {f : Lambda} {vs : List Value} {ds : List Datum} {s : State} {μ : Memory}
    (hs : s.Represents it.names k μ)
    (hc : c.Represents it.names s.store f)
    (hvs : List.Forall₂ (Value.Represents it.names s.store) vs ds)
    (fits : ds.length = f.params.length) (room : ∀ k, it.limit = some k → it.depth < k) :
    ∃ s', s'.Represents it.names k (μ.push.declareAll μ.next (f.params.zip ds)).2 ∧
      s.store.Grows s'.store ∧ s'.store.Around μ.next (μ.next :: f.env) ∧
      ∀ ev, apply ev it c vs s =
        match (μ.push.declareAll μ.next (f.params.zip ds)).1 with
        | none => ev (it.enter c μ.next) c.body s'
        | some p => .error (.error (.duplicateDeclaration p)) s' := by
  have harity : vs.length = c.arity := by
    rw [hvs.length_eq, fits, Closure.arity, hc.params.length_eq]
  have hnext : s.store.scopes.size = μ.next := hs.store.size
  have hchild : State.Represents it.names k { s with store := (s.store.child c.env).2 } μ.push :=
    hs.withStore (hs.store.child c.env) rfl
  have grown : s.store.Grows (s.store.child c.env).2 := .child s.store c.env
  have haround : (s.store.child c.env).2.Around μ.next (μ.next :: f.env) := by
    rw [← hnext]
    exact hc.env.child
  obtain ⟨s', hs', grown', hrun⟩ := declareParams_represents wf μ.next hchild hc.params
    (hvs.imp fun _ _ h => h.grows grown)
  refine ⟨s', hs', grown.trans grown', haround.grows grown', fun ev => ?_⟩
  rw [apply_room harity room, hnext]
  simp only [Bind.bind, EStateM.bind, hrun]
  cases (μ.push.declareAll μ.next (f.params.zip ds)).1 <;> rfl

/-! ### Evaluator and rules side by side -/

/-- The interpreter, in the state `s`, is where the rules are with the memory `μ`. -/
structure Interpreter.Follows (it : Interpreter) (k : Sink) (limit : Option Nat) (depth : Nat)
    (env : List ScopeId) (s : State) (μ : Memory) : Prop where
  names : it.names.WellFormed
  limit : it.limit = limit
  depth : it.depth = depth
  around : s.store.Around it.env env
  state : s.Represents it.names k μ

namespace Interpreter.Follows

variable {it : Interpreter} {k : Sink} {limit : Option Nat} {depth : Nat} {env : List ScopeId}
  {s s' : State} {μ μ' : Memory}

theorem after (h : it.Follows k limit depth env s μ) (grown : s.store.Grows s'.store)
    (hs : s'.Represents it.names k μ') : it.Follows k limit depth env s' μ' :=
  ⟨h.names, h.limit, h.depth, h.around.grows grown, hs⟩

theorem child (h : it.Follows k limit depth env s μ) :
    Follows { it with env := s.store.scopes.size } k limit depth (μ.next :: env)
      { s with store := (s.store.child it.env).2 } μ.push where
  names := h.names
  limit := h.limit
  depth := h.depth
  around := by
    rw [Memory.next, ← h.state.store.size]
    exact h.around.child
  state := h.state.withStore (h.state.store.child it.env) rfl

theorem enter (h : it.Follows k limit depth env s μ) {c : Closure} {e : ScopeId}
    {env' : List ScopeId} (around : s'.store.Around e env') (hs : s'.Represents it.names k μ') :
    (it.enter c e).Follows k limit (depth + 1) env' s' μ' :=
  ⟨h.names, h.limit, congrArg (· + 1) h.depth, around, hs⟩

end Interpreter.Follows

namespace Tree

theorem eq_absent_of_denotesSeq {names : Interner} {a : Arena} {ts : List Term} {id : NodeId}
    (nothing : anyPresent ts = false) (h : DenotesSeq names a ts id) : id = .absent := by
  induction ts with
  | nil => exact h
  | cons t ts ih =>
    rw [anyPresent, Bool.or_eq_false_iff] at nothing
    rw [DenotesSeq, if_neg (by simp [nothing.1])] at h
    exact ih nothing.2 h

theorem eq_absent_of_denotes {names : Interner} {a : Arena} {t : Term} {id : NodeId}
    (nothing : t.isPresent = false) (h : t.Denotes names a id) : id = .absent := by
  cases t with
  | absent => exact h
  | binary token l r =>
    rw [isPresent, Option.isSome_eq_false_iff, Option.isNone_iff_eq_none] at nothing
    simpa only [Denotes, nothing] using h
  | seq ts | block ts => exact eq_absent_of_denotesSeq nothing h
  | scopedBlock ts =>
    rw [isPresent] at nothing
    rwa [Denotes, if_neg (by simp [nothing])] at h
  | hole filling => exact filling.elim
  | _ => cases nothing

end Tree

end Treewalk
