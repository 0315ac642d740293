import Mathlib.Data.List.Induction
import Mathlib.Data.List.Nodup
import Treewalk.Proofs.Identity

/-! Calls of closures. A call is refused if it has the wrong number of arguments, if too many calls
are around it, or if its closure has two parameters of one name, in this order. Otherwise its body
runs in a new scope with the parameters as its variables. -/

namespace Treewalk

/-! ### Names that occur twice -/

/-- The name `x` at the position `j` of the list is the first that occurs already before. -/
structure FirstRepeat (xs : List Name) (j : Nat) (x : Name) : Prop where
  here : xs[j]? = some x
  earlier : x ∈ xs.take j
  distinct : (xs.take j).Nodup

namespace FirstRepeat

variable {xs : List Name} {j : Nat} {x : Name}

theorem append (h : FirstRepeat xs j x) (ys : List Name) : FirstRepeat (xs ++ ys) j x := by
  obtain ⟨hlt, -⟩ := List.getElem?_eq_some_iff.mp h.here
  have htake : (xs ++ ys).take j = xs.take j := List.take_append_of_le_length (Nat.le_of_lt hlt)
  refine ⟨?_, ?_, ?_⟩
  · rw [List.getElem?_append_left hlt]
    exact h.here
  · rw [htake]
    exact h.earlier
  · rw [htake]
    exact h.distinct

theorem split (h : FirstRepeat xs j x) : xs = xs.take j ++ x :: xs.drop (j + 1) := by
  obtain ⟨hlt, rfl⟩ := List.getElem?_eq_some_iff.mp h.here
  rw [List.getElem_cons_drop, List.take_append_drop]

end FirstRepeat

/-- A list of names has a first repeated name exactly if it has repeated names. -/
theorem exists_firstRepeat_iff {xs : List Name} : (∃ j x, FirstRepeat xs j x) ↔ ¬ xs.Nodup := by
  constructor
  · rintro ⟨j, x, h⟩ hnodup
    rw [h.split, List.nodup_append] at hnodup
    exact hnodup.2.2 x h.earlier x List.mem_cons_self rfl
  · intro h
    induction xs using List.reverseRecOn with
    | nil => exact absurd List.nodup_nil h
    | append_singleton xs y ih =>
      -- the last name is the first repeat only if the names before it are distinct
      by_cases hxs : xs.Nodup
      · have hy : y ∈ xs := by
          by_contra hy
          rw [← List.concat_eq_append] at h
          exact h (List.Nodup.concat hy hxs)
        exact ⟨xs.length, y, by simp, by simpa using hy, by simpa using hxs⟩
      · obtain ⟨j, x, hfirst⟩ := ih hxs
        exact ⟨j, x, hfirst.append [y]⟩

/-! ### Variables of a new scope -/

/-- A name that is not bound is added at the end. -/
theorem Scope.put_of_notMem {x : Name} {bs : List (Name × Value)} (h : x ∉ bs.map Prod.fst)
    (v : Value) : put x v bs = bs ++ [(x, v)] := by
  induction bs with
  | nil => rfl
  | cons b bs ih =>
    rw [List.map_cons, List.mem_cons, not_or] at h
    rw [put, if_neg h.1, ih h.2, List.cons_append]

namespace Store

theorem scope_alloc_self (s : Store) (sc : Scope) : (s.alloc sc).2.scope s.scopes.size = sc := by
  rw [scope_alloc, if_pos rfl]

theorem bind_alloc (s : Store) (sc : Scope) (x : Name) (v : Value) :
    (s.alloc sc).2.bind s.scopes.size x v = (s.alloc (sc.bind x v)).2 := by
  simp only [alloc, bind, Store.mk.injEq, and_true]
  refine Array.ext_getElem? fun i => ?_
  rw [Array.getElem?_modify, Array.getElem?_push, Array.getElem?_push]
  by_cases hi : i = s.scopes.size
  · simp [hi]
  · simp [hi, Ne.symm hi]

end Store

namespace Interpreter

variable {it : Interpreter} {c : Closure} {args : List Value} {s : State}

/-- A declaration in the youngest scope. -/
theorem declareIn_alloc (it : Interpreter) (store : Store) (k : Sink) (sc : Scope) (x : Name)
    (v : Value) :
    it.declareIn store.scopes.size x v ⟨(store.alloc sc).2, k⟩ =
      if x ∈ sc.bindings.map Prod.fst then
        .error (.error (.duplicateDeclaration (it.names.lookup x))) ⟨(store.alloc sc).2, k⟩
      else .ok () ⟨(store.alloc { sc with bindings := sc.bindings ++ [(x, v)] }).2, k⟩ := by
  rw [declareIn_run, Store.bindsLocally, Store.scope_alloc_self]
  by_cases bound : x ∈ sc.bindings.map Prod.fst
  · rw [if_pos bound, if_pos ((sc.mem_names_iff x).mp bound)]
  · rw [if_neg bound, if_neg fun h => bound ((sc.mem_names_iff x).mpr h), Store.bind_alloc,
      Scope.bind, Scope.put_of_notMem bound]

/-- Parameters with different names become variables of the youngest scope; then come the other
parameters. -/
theorem declareParams_alloc (it : Interpreter) (store : Store) (k : Sink) (sc : Scope)
    (xs ys : List Name) (vs : List Value) (distinct : (sc.bindings.map Prod.fst ++ xs).Nodup)
    (fits : xs.length ≤ vs.length) :
    it.declareParams store.scopes.size (xs ++ ys) vs ⟨(store.alloc sc).2, k⟩ =
      it.declareParams store.scopes.size ys (vs.drop xs.length)
        ⟨(store.alloc { sc with bindings := sc.bindings ++ xs.zip vs }).2, k⟩ := by
  induction xs generalizing sc vs with
  | nil => simp
  | cons x xs ih =>
    cases vs with
    | nil => cases fits
    | cons v vs =>
      have hnew : x ∉ sc.bindings.map Prod.fst := fun hx =>
        (List.nodup_append.mp distinct).2.2 x hx x List.mem_cons_self rfl
      have hfirst := it.declareIn_alloc store k sc x v
      rw [if_neg hnew] at hfirst
      have distinct' : ((sc.bindings ++ [(x, v)]).map Prod.fst ++ xs).Nodup := by
        simpa using distinct
      rw [List.cons_append, declareParams, EvalM.bind_of_ok hfirst,
        ih _ _ distinct' (Nat.le_of_succ_le_succ fits)]
      simp

/-! ### Opening a call -/

theorem openCall_arity (h : args.length ≠ c.arity) (s : State) :
    it.openCall c args s = .error (.error (.arityMismatch c.arity args.length)) s := by
  unfold openCall
  rw [if_neg h]
  rfl

theorem openCall_overflow {k : Nat} (fits : args.length = c.arity) (bound : it.limit = some k)
    (deep : k ≤ it.depth) (s : State) :
    it.openCall c args s = .error (.error (.stackOverflow k)) s := by
  unfold openCall
  rw [if_pos fits, checkLimit_of_le bound deep]
  rfl

theorem openCall_room (fits : args.length = c.arity)
    (room : ∀ k, it.limit = some k → it.depth < k) (s : State) :
    it.openCall c args s =
      (it.declareParams s.store.scopes.size c.params args >>= fun _ => pure s.store.scopes.size)
        { s with store := (s.store.child c.env).2 } := by
  unfold openCall
  rw [if_pos fits, checkLimit_of_room room]
  rfl

/-- The first parameter with the name of an earlier one is the one that fails. -/
theorem openCall_repeat (fits : args.length = c.arity)
    (room : ∀ k, it.limit = some k → it.depth < k) {j : Nat} {x : Name}
    (first : FirstRepeat c.params j x) (s : State) :
    it.openCall c args s = .error (.error (.duplicateDeclaration (it.names.lookup x)))
      { s with store := (s.store.alloc ⟨(c.params.take j).zip args, some c.env⟩).2 } := by
  have hparams : j < c.params.length := (List.getElem?_eq_some_iff.mp first.here).1
  have hj : j < args.length := by
    rw [fits]
    exact hparams
  have hlength : (c.params.take j).length = j := List.length_take_of_le (Nat.le_of_lt hparams)
  -- the parameters before the position `j` are declared, and the one at `j` is bound by then
  have hbefore := it.declareParams_alloc s.store s.sink { parent := some c.env } (c.params.take j)
    (x :: c.params.drop (j + 1)) args (by simpa using first.distinct) (by omega)
  rw [← first.split, hlength, List.drop_eq_getElem_cons hj, declareParams] at hbefore
  have hhere := it.declareIn_alloc s.store s.sink ⟨(c.params.take j).zip args, some c.env⟩ x args[j]
  rw [if_pos] at hhere
  · rw [openCall_room fits room]
    exact EvalM.bind_of_error (hbefore.trans (EvalM.bind_of_error hhere))
  · rw [List.map_fst_zip (by omega)]
    exact first.earlier

/-- Parameters with different names are the variables of the new scope. -/
theorem openCall_distinct (fits : args.length = c.arity)
    (room : ∀ k, it.limit = some k → it.depth < k) (distinct : c.params.Nodup) (s : State) :
    it.openCall c args s = .ok s.store.scopes.size
      { s with store := (s.store.alloc ⟨c.params.zip args, some c.env⟩).2 } := by
  have hparams := it.declareParams_alloc s.store s.sink { parent := some c.env } c.params [] args
    (by simpa using distinct) (Nat.le_of_eq fits.symm)
  rw [List.append_nil] at hparams
  rw [openCall_room fits room]
  exact EvalM.bind_of_ok hparams

/-- What can come of opening a call, in the order of the checks. -/
inductive Opening (it : Interpreter) (c : Closure) (args : List Value) (s : State) :
    Outcome ScopeId → Prop where
  | arity (misfit : args.length ≠ c.arity) :
      Opening it c args s (.error (.error (.arityMismatch c.arity args.length)) s)
  | overflow {k : Nat} (fits : args.length = c.arity) (bound : it.limit = some k)
      (deep : k ≤ it.depth) : Opening it c args s (.error (.error (.stackOverflow k)) s)
  | repeated {j : Nat} {x : Name} (fits : args.length = c.arity)
      (room : ∀ k, it.limit = some k → it.depth < k) (first : FirstRepeat c.params j x) :
      Opening it c args s (.error (.error (.duplicateDeclaration (it.names.lookup x)))
        { s with store := (s.store.alloc ⟨(c.params.take j).zip args, some c.env⟩).2 })
  | opened (fits : args.length = c.arity) (room : ∀ k, it.limit = some k → it.depth < k)
      (distinct : c.params.Nodup) :
      Opening it c args s (.ok s.store.scopes.size
        { s with store := (s.store.alloc ⟨c.params.zip args, some c.env⟩).2 })

theorem openCall_opening (it : Interpreter) (c : Closure) (args : List Value) (s : State) :
    it.Opening c args s (it.openCall c args s) := by
  by_cases fits : args.length = c.arity
  · by_cases room : ∀ k, it.limit = some k → it.depth < k
    · by_cases distinct : c.params.Nodup
      · rw [openCall_distinct fits room distinct]
        exact .opened fits room distinct
      · obtain ⟨j, x, first⟩ := exists_firstRepeat_iff.mpr distinct
        rw [openCall_repeat fits room first]
        exact .repeated fits room first
    · push Not at room
      obtain ⟨k, bound, deep⟩ := room
      rw [openCall_overflow fits bound deep]
      exact .overflow fits bound deep
  · rw [openCall_arity fits]
    exact .arity fits

section Refused

variable {cause : Halt} {t : State}

theorem openCall_arity_iff {expected got : Nat} :
    it.openCall c args s = .error (.error (.arityMismatch expected got)) t ↔
      args.length ≠ c.arity ∧ expected = c.arity ∧ got = args.length ∧ t = s := by
  constructor
  · intro h
    have opening := it.openCall_opening c args s
    rw [h] at opening
    cases opening with
    | arity misfit => exact ⟨misfit, rfl, rfl, rfl⟩
  · rintro ⟨misfit, rfl, rfl, rfl⟩
    exact openCall_arity misfit t

theorem openCall_overflow_iff {k : Nat} :
    it.openCall c args s = .error (.error (.stackOverflow k)) t ↔
      args.length = c.arity ∧ it.limit = some k ∧ k ≤ it.depth ∧ t = s := by
  constructor
  · intro h
    have opening := it.openCall_opening c args s
    rw [h] at opening
    cases opening with
    | overflow fits bound deep => exact ⟨fits, bound, deep, rfl⟩
  · rintro ⟨fits, bound, deep, rfl⟩
    exact openCall_overflow fits bound deep t

theorem openCall_duplicate_iff {name : String} :
    it.openCall c args s = .error (.error (.duplicateDeclaration name)) t ↔
      args.length = c.arity ∧ (∀ k, it.limit = some k → it.depth < k) ∧
        ∃ j x, FirstRepeat c.params j x ∧ name = it.names.lookup x ∧
          t = { s with store := (s.store.alloc ⟨(c.params.take j).zip args, some c.env⟩).2 } := by
  constructor
  · intro h
    have opening := it.openCall_opening c args s
    rw [h] at opening
    cases opening with
    | repeated fits room first => exact ⟨fits, room, _, _, first, rfl, rfl⟩
  · rintro ⟨fits, room, j, x, first, rfl, rfl⟩
    exact openCall_repeat fits room first s

/-- A call that is refused ends at once, prints nothing and leaves all scopes as they are. -/
theorem callEnds_of_refused (refused : it.openCall c args s = .error cause t) :
    it.CallEnds (.closure c) args s (.error cause t) ∧ t.sink = s.sink ∧
      ∀ e, e < s.store.scopes.size → t.store.scope e = s.store.scope e := by
  have hcall : ∀ n, it.callWith n (.closure c) args s = .error cause t := by
    intro n
    rw [callWith, apply_eq_openCall, EvalM.bind_of_error refused]
  have opening := it.openCall_opening c args s
  rw [refused] at opening
  cases opening with
  | arity | overflow => exact ⟨.of_eq trivial hcall, rfl, fun _ _ => rfl⟩
  | repeated =>
    refine ⟨.of_eq trivial hcall, rfl, fun e he => ?_⟩
    rw [Store.scope_alloc, if_neg (Nat.ne_of_lt he)]

end Refused

end Interpreter

/-! ### The scope of a call -/

/-- The state `t` differs from `s` in a new scope inside the one that the closure captured, which
has the arguments as the values of the parameters and no other variables. -/
structure Closure.Opens (c : Closure) (args : List Value) (s : State) (scope : ScopeId)
    (t : State) : Prop where
  fresh : scope = s.store.scopes.size
  size : t.store.scopes.size = s.store.scopes.size + 1
  others : ∀ e, e ≠ scope → t.store.scope e = s.store.scope e
  parent : t.store.parent scope = some c.env
  values : List.Forall₂ (fun x v => t.store.local? scope x = some v) c.params args
  names : ∀ x, t.store.bindsLocally scope x = true ↔ x ∈ c.params
  localSize : t.store.localSize scope = c.arity
  sink : t.sink = s.sink
  nextClosure : t.store.nextClosure = s.store.nextClosure
  nextCode : t.store.nextCode = s.store.nextCode

namespace Interpreter

variable {it : Interpreter} {c : Closure} {args : List Value} {s t : State} {scope : ScopeId}

theorem opens_of_openCall (opened : it.openCall c args s = .ok scope t) :
    c.Opens args s scope t := by
  have values := forall₂_openCall opened
  have opening := it.openCall_opening c args s
  rw [opened] at opening
  cases opening with
  | opened fits room distinct =>
    have hscope := s.store.scope_alloc_self ⟨c.params.zip args, some c.env⟩
    have hnames : (c.params.zip args).map Prod.fst = c.params :=
      List.map_fst_zip (Nat.le_of_eq fits.symm)
    refine ⟨rfl, s.store.size_alloc _, fun e hne => ?_, ?_, values, fun x => ?_, ?_, rfl, rfl, rfl⟩
    · rw [Store.scope_alloc, if_neg hne]
    · rw [Store.parent, hscope]
    · rw [Store.bindsLocally, hscope, ← Scope.mem_names_iff, hnames]
    · rw [Store.localSize, hscope, Scope.size, ← List.length_map Prod.fst, hnames, Closure.arity]

/-- A call ends as its body does in the new scope. -/
theorem callEnds_iff_of_opened (opened : it.openCall c args s = .ok scope t) {r : Outcome Value} :
    it.CallEnds (.closure c) args s r ↔ (it.enter c scope).Ends c.body t r := by
  refine EvalM.Ends.iff_of_eq (n := 0) fun k _ => ?_
  rw [callWith, apply_eq_openCall, EvalM.bind_of_ok opened]

/-- A call that does not end because of the limit has room. -/
theorem room_of_callEnds {r : Outcome Value} (ends : it.CallEnds (.closure c) args s r)
    (fits : args.length = c.arity)
    (other : ∀ limit t, r ≠ .error (.error (.stackOverflow limit)) t) (k : Nat)
    (bound : it.limit = some k) : it.depth < k := by
  by_contra full
  have refused := openCall_overflow fits bound (Nat.le_of_not_lt full) s
  exact other k s (ends.unique (callEnds_of_refused refused).1)

/-- The call that an expression makes when its callee and arguments have their values. -/
theorem ends_call_iff {id f : NodeId} {span : Span} {ids : List NodeId} {s₀ s₁ : State}
    (hold : it.code.arena.Holds id (.call f span))
    (hids : it.code.arena.arguments? span = some ids)
    (hcallee : it.Ends f s₀ (.ok (.closure c) s₁))
    (hargs : EvalM.Ends (fun n => ids.mapM (it.evalWith n)) s₁ (.ok args s)) {r : Outcome Value} :
    it.Ends id s₀ r ↔ it.CallEnds (.closure c) args s r := by
  obtain ⟨n₁, hn₁⟩ := hcallee.settles
  obtain ⟨n₂, hn₂⟩ := hargs.settles
  refine EvalM.Ends.iff_succ.trans (EvalM.Ends.iff_of_eq (n := max n₁ n₂) fun k hk => ?_)
  rw [evalWith_holds hold, evalNode_call hids, EvalM.bind_of_ok (hn₁ k (by omega))]
  exact EvalM.bind_of_ok (hn₂ k (by omega))

end Interpreter

/-- All outcomes of calls. A call is refused for the number of its arguments exactly if that is not
the number of parameters; otherwise for the number of calls around it exactly if there is a limit
and it is reached; and otherwise for a declaration exactly if a name occurs twice among the
parameters, and then for the first one that occurs already before. A call that is refused ends at
once, leaves every scope as it is and prints nothing. If it is not refused, then its body is
evaluated over the arena of the closure, one call deeper, in a new scope that has the arguments as
the values of the parameters, and the call ends as its body does; if there is no body, in null. A
call expression does the same once its callee and its arguments have their values. -/
theorem call_outcomes (it : Interpreter) (c : Closure) (args : List Value) (s : State) :
    (∀ expected got t, it.openCall c args s = .error (.error (.arityMismatch expected got)) t ↔
      args.length ≠ c.arity ∧ expected = c.arity ∧ got = args.length ∧ t = s) ∧
    (∀ k t, it.openCall c args s = .error (.error (.stackOverflow k)) t ↔
      args.length = c.arity ∧ it.limit = some k ∧ k ≤ it.depth ∧ t = s) ∧
    ((∃ name t, it.openCall c args s = .error (.error (.duplicateDeclaration name)) t) ↔
      args.length = c.arity ∧ (∀ k, it.limit = some k → it.depth < k) ∧ ¬ c.params.Nodup) ∧
    (∀ name t, it.openCall c args s = .error (.error (.duplicateDeclaration name)) t →
      ∃ j x, FirstRepeat c.params j x ∧ name = it.names.lookup x) ∧
    (∀ cause t, it.openCall c args s = .error cause t →
      it.CallEnds (.closure c) args s (.error cause t) ∧ t.sink = s.sink ∧
        ∀ e, e < s.store.scopes.size → t.store.scope e = s.store.scope e) ∧
    (args.length = c.arity → (∀ k, it.limit = some k → it.depth < k) → c.params.Nodup →
      ∃ scope t, it.openCall c args s = .ok scope t ∧ c.Opens args s scope t ∧
        (∀ r, it.CallEnds (.closure c) args s r ↔
          Interpreter.Ends { it with code := c.code, env := scope, depth := it.depth + 1 }
            c.body t r) ∧
        (c.body.isPresent = false → it.CallEnds (.closure c) args s (.ok .null t))) ∧
    ∀ id f span ids s₀ s₁, it.code.arena.Holds id (.call f span) →
      it.code.arena.arguments? span = some ids → it.Ends f s₀ (.ok (.closure c) s₁) →
      EvalM.Ends (fun n => ids.mapM (it.evalWith n)) s₁ (.ok args s) →
      ∀ r, it.Ends id s₀ r ↔ it.CallEnds (.closure c) args s r := by
  refine ⟨fun _ _ _ => Interpreter.openCall_arity_iff, fun _ _ => Interpreter.openCall_overflow_iff,
    ⟨?_, ?_⟩, fun name t h => ?_, fun _ _ => Interpreter.callEnds_of_refused,
    fun fits room distinct => ?_,
    fun _ _ _ _ _ _ hold hids hcallee hargs _ =>
      Interpreter.ends_call_iff hold hids hcallee hargs⟩
  · rintro ⟨name, t, h⟩
    obtain ⟨fits, room, j, x, first, -⟩ := Interpreter.openCall_duplicate_iff.mp h
    exact ⟨fits, room, exists_firstRepeat_iff.mp ⟨j, x, first⟩⟩
  · rintro ⟨fits, room, repeats⟩
    obtain ⟨j, x, first⟩ := exists_firstRepeat_iff.mpr repeats
    exact ⟨_, _, Interpreter.openCall_repeat fits room first s⟩
  · obtain ⟨-, -, j, x, first, hname, -⟩ := Interpreter.openCall_duplicate_iff.mp h
    exact ⟨j, x, first, hname⟩
  · have opened := Interpreter.openCall_distinct fits room distinct s
    refine ⟨_, _, opened, Interpreter.opens_of_openCall opened,
      fun _ => Interpreter.callEnds_iff_of_opened opened, fun absent => ?_⟩
    exact (Interpreter.callEnds_iff_of_opened opened).mpr (Interpreter.ends_absent _ absent _)

/-- Of four parameters whose names occur twice each, the third is the first to repeat a name. -/
theorem call_outcomes_two_repeats :
    let it : Interpreter := { names := .initial, code := ⟨0, {}⟩, env := 0 }
    let c : Closure := ⟨0, [⟨1⟩, ⟨2⟩, ⟨2⟩, ⟨1⟩], .absent, 0, it.code⟩
    ∃ t, it.CallEnds (.closure c) [.null, .null, .null, .null] {}
      (.error (.error (.duplicateDeclaration (it.names.lookup ⟨2⟩))) t) := by
  intro it c
  obtain ⟨-, -, hduplicate, hname, hrefused, -⟩ :=
    call_outcomes it c [.null, .null, .null, .null] {}
  have room : ∀ k, it.limit = some k → it.depth < k := by
    rintro _ ⟨⟩
    decide
  obtain ⟨name, t, h⟩ := hduplicate.mpr ⟨rfl, room, by decide⟩
  obtain ⟨j, x, first, rfl⟩ := hname name t h
  obtain rfl : x = ⟨2⟩ := by
    match j, first with
    | 0, first => cases first.earlier
    | 1, first => exact (Option.some.inj first.here).symm
    | 2, first => exact (Option.some.inj first.here).symm
    | 3, first => exact absurd first.distinct (by decide)
    | j + 4, first => cases first.here
  exact ⟨t, (hrefused _ t h).1⟩

end Treewalk
