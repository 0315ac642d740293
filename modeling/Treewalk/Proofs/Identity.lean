import Treewalk.Proofs.ScopeForest

/-! The identity of closures. A closure is made once, under a number of its own, and is then handed
on as it is: bound to names, passed to calls, returned and printed. So closures that compare equal
are the same closure, in whatever states they are found. -/

namespace Treewalk

/-! ### Equality of the language -/

/-- Values compare equal if they are the same datum or closures with the same number. -/
theorem Value.same_iff_alike {u v : Value} :
    u.same v = true ↔ Value.Alike (fun c d => c.id = d.id) u v := by
  constructor
  · intro h
    cases u with
    | int a =>
      cases v with
      | int b =>
        obtain rfl : a = b := beq_iff_eq.mp h
        exact .int
      | _ => cases h
    | bool a =>
      cases v with
      | bool b =>
        obtain rfl : a = b := beq_iff_eq.mp h
        exact .bool
      | _ => cases h
    | null =>
      cases v with
      | null => exact .null
      | _ => cases h
    | closure c =>
      cases v with
      | closure d => exact .closure (beq_iff_eq.mp h)
      | _ => cases h
  · intro h
    cases h with
    | int | bool => exact beq_self_eq_true _
    | null => rfl
    | closure h => exact beq_iff_eq.mpr h

theorem Value.same_equivalence : Equivalence fun u v : Value => u.same v = true where
  refl u := by
    cases u with
    | closure c => exact same_iff_alike.mpr (.closure rfl)
    | _ => exact same_iff_alike.mpr (.of_data rfl)
  symm {u v} h := by
    rw [same_iff_alike] at h ⊢
    cases h with
    | closure h => exact .closure h.symm
    | _ => exact .of_data rfl
  trans {u v w} h h' := by
    rw [same_iff_alike] at h h' ⊢
    cases h with
    | closure h =>
      cases h' with
      | closure h' => exact .closure (h.trans h')
    | _ => exact h'

theorem Value.same_closure_eq_false {v : Value} {c : Closure} (h : v.Meets (·.id < c.id)) :
    (Value.closure c).same v = false ∧ v.same (.closure c) = false := by
  cases v with
  | closure d =>
    have hne : d.id ≠ c.id := Nat.ne_of_lt (h d rfl)
    exact ⟨beq_eq_false_iff_ne.mpr hne.symm, beq_eq_false_iff_ne.mpr hne⟩
  | _ => exact ⟨rfl, rfl⟩

/-! ### Values are handed on -/

/-- What is written to the first place that has something, or else to the last one, is what is found
afterwards. -/
theorem findSome?_written {α β : Type} [DecidableEq α] {places : List α} {f : α → Option β} {b : α}
    (target : (places.find? fun a => (f a).isSome).or places.getLast? = some b) (v : β) :
    (places.findSome? fun a => if a = b then some v else f a) = some v := by
  induction places with
  | nil => cases target
  | cons a places ih =>
    rw [List.findSome?_cons]
    by_cases heq : a = b
    · rw [if_pos heq]
    · rw [if_neg heq]
      rw [List.find?_cons] at target
      cases hf : f a with
      | some w =>
        simp only [hf, Option.isSome_some, Option.some_or, Option.some.injEq] at target
        exact absurd target heq
      | none =>
        simp only [hf, Option.isSome_none] at target
        cases places with
        | nil => exact absurd (by simpa using target) heq
        | cons a' places => exact ih (by simpa using target)

namespace Store

variable {s : Store} {e : ScopeId}

theorem le_of_mem_chain {b : ScopeId} (h : b ∈ s.chain e) : b ≤ e := by
  induction e using Nat.strongRecOn with
  | _ e ih =>
    rw [chain] at h
    split at h
    next p hp _ =>
      rcases List.mem_cons.mp h with rfl | h
      · exact Nat.le_refl _
      · exact Nat.le_trans (ih p hp h) (Nat.le_of_lt hp)
    next => exact Nat.le_of_eq (List.mem_singleton.mp h)

/-- A declared name has the value that was declared. -/
theorem resolve_bind (there : e < s.scopes.size) (x : Name) (v : Value) :
    (s.bind e x v).resolve e x = some v := by
  have hlocal : (s.bind e x v).local? e x = some v := by
    rw [local?_bind, if_pos ⟨rfl, there, rfl⟩]
  rw [resolve, hlocal]

/-- An updated name has the value that it was updated to. -/
theorem resolve_update (there : e < s.scopes.size) (x : Name) (v : Value) :
    (s.update e x v).2.resolve e x = some v := by
  obtain ⟨b, target, hupdate⟩ := s.update_eq_bind e x v
  have hb : b ∈ s.chain e := by
    rcases Option.or_eq_some_iff.mp target with h | h
    · exact List.mem_of_find?_eq_some h
    · exact List.mem_of_getLast? h.2
  have hlt : b < s.scopes.size := Nat.lt_of_le_of_lt (le_of_mem_chain hb) there
  have hlocal : ∀ a, (s.bind b x v).local? a x = if a = b then some v else s.local? a x := by
    intro a
    rw [local?_bind]
    simp [hlt]
  rw [hupdate, resolve_eq_findSome?, (Grows.bind s b x v).chain there]
  simp only [hlocal]
  exact findSome?_written target v

end Store

namespace Interpreter

variable {it : Interpreter} {s t : State} {e : ScopeId} {xs : List Name} {vs : List Value}

/-- An assignment reads the name back. -/
theorem assign_run (it : Interpreter) (x : Name) (v : Value) (s : State) :
    (do let _ ← EvalM.onStore (·.update it.env x v); it.lookup x : EvalM Value) s =
      .ok (((s.store.update it.env x v).2.resolve it.env x).getD .null)
        { s with store := (s.store.update it.env x v).2 } :=
  rfl

/-- A declaration that succeeds binds a name that was not bound. -/
theorem declareIn_ok {x : Name} {v : Value} (h : it.declareIn e x v s = .ok () t) :
    s.store.bindsLocally e x = false ∧ t.store = s.store.bind e x v := by
  rw [declareIn_run] at h
  split at h
  next => cases h
  next free =>
    cases h
    exact ⟨eq_false_of_ne_true free, rfl⟩

/-- The declaration of the first parameter, and then of the others. -/
theorem declareParams_cons_ok {x : Name} {v : Value}
    (h : it.declareParams e (x :: xs) (v :: vs) s = .ok () t) :
    ∃ u, it.declareIn e x v s = .ok () u ∧ it.declareParams e xs vs u = .ok () t := by
  obtain ⟨_, u, hx, hrest⟩ := EvalM.bind_eq_ok.mp h
  exact ⟨u, hx, hrest⟩

/-- Parameters that are declared with success leave the bindings that were there as they are. -/
theorem local?_declareParams (h : it.declareParams e xs vs s = .ok () t) {y : Name} {w : Value}
    (bound : s.store.local? e y = some w) : t.store.local? e y = some w := by
  induction xs generalizing vs s with
  | nil =>
    cases h
    exact bound
  | cons x xs ih =>
    cases vs with
    | nil =>
      cases h
      exact bound
    | cons v vs =>
      obtain ⟨u, hx, hrest⟩ := declareParams_cons_ok h
      obtain ⟨free, hu⟩ := declareIn_ok hx
      refine ih hrest ?_
      have hne : y ≠ x := by
        rintro rfl
        rw [Store.bindsLocally, Scope.binds, ← Store.local?, bound] at free
        cases free
      rw [hu, Store.local?_bind, if_neg fun h => hne h.2.2]
      exact bound

/-- Parameters that are declared with success have the values of their arguments. -/
theorem forall₂_declareParams (h : it.declareParams e xs vs s = .ok () t)
    (fits : vs.length = xs.length) (there : e < s.store.scopes.size) :
    List.Forall₂ (fun x v => t.store.local? e x = some v) xs vs := by
  induction xs generalizing vs s with
  | nil =>
    obtain rfl := List.eq_nil_of_length_eq_zero fits
    exact .nil
  | cons x xs ih =>
    cases vs with
    | nil => cases fits
    | cons v vs =>
      obtain ⟨u, hx, hrest⟩ := declareParams_cons_ok h
      obtain ⟨-, hu⟩ := declareIn_ok hx
      have hlocal : u.store.local? e x = some v := by
        rw [hu, Store.local?_bind, if_pos ⟨rfl, there, rfl⟩]
      have there' : e < u.store.scopes.size := by
        rw [hu, Store.size_bind]
        exact there
      exact .cons (local?_declareParams hrest hlocal) (ih hrest (Nat.succ.inj fits) there')

/-- A call that opens its scope binds each parameter to the argument itself. -/
theorem forall₂_openCall {c : Closure} {args : List Value} {scope : ScopeId}
    (h : it.openCall c args s = .ok scope t) :
    List.Forall₂ (fun x v => t.store.local? scope x = some v) c.params args := by
  unfold openCall at h
  split at h
  next fits =>
    obtain ⟨_, u, _, hopen⟩ := EvalM.bind_eq_ok.mp h
    obtain ⟨e, u', hchild, hdeclare⟩ := EvalM.bind_eq_ok.mp hopen
    obtain ⟨_, u'', hparams, hscope⟩ := EvalM.bind_eq_ok.mp hdeclare
    clear h hopen hdeclare
    cases hchild
    cases hscope
    have there : (u.store.child c.env).1 < (u.store.child c.env).2.scopes.size := by
      rw [Store.child, Store.size_alloc]
      exact Nat.lt_succ_self _
    exact forall₂_declareParams hparams fits there
  next => cases h

end Interpreter

/-! ### Whole histories -/

namespace Holding

/-- Values stay what they are: a name has the value that it was declared with or updated to, also
if this was done by an expression, and the value that is read is one that is bound; parameters have
the arguments themselves as values; calls and blocks give what the evaluation inside them gives; and
a print gives what it shows. -/
structure Faithful (h : Holding) : Prop where
  declared : ∀ e ∈ h.scopes, ∀ x v, (h.store.declare e x v).1 = .declared →
    (h.store.declare e x v).2.resolve e x = some v
  updated : ∀ e ∈ h.scopes, ∀ x v, (h.store.update e x v).2.resolve e x = some v
  binding : ∀ (it : Interpreter) n id x i k v t r u, it.env ∈ h.scopes →
    it.code.arena.Holds id (.declare x i) ∨ it.code.arena.Holds id (.assign x i) →
    it.evalWith n i ⟨h.store, k⟩ = .ok v t → it.evalWith (n + 1) id ⟨h.store, k⟩ = .ok r u →
    r = v ∧ u.store.resolve it.env x = some v
  resolved : ∀ e x v, h.store.resolve e x = some v → ∃ b ∈ h.store.chain e,
    h.store.local? b x = some v
  passed : ∀ (it : Interpreter) c args k scope t,
    it.openCall c args ⟨h.store, k⟩ = .ok scope t →
    List.Forall₂ (fun x v => t.store.local? scope x = some v) c.params args
  returned : ∀ (it : Interpreter) n c args k scope t,
    it.openCall c args ⟨h.store, k⟩ = .ok scope t →
    it.callWith n (.closure c) args ⟨h.store, k⟩ = (it.enter c scope).evalWith n c.body t
  entered : ∀ τ done σ, τ.state.store = h.store → Activation.Enters τ done σ → τ.run = σ.run
  printed : ∀ (it : Interpreter) n id i k v t, it.code.arena.Holds id (.print i) →
    it.evalWith n i ⟨h.store, k⟩ = .ok v t →
    it.evalWith (n + 1) id ⟨h.store, k⟩ = .ok v { t with sink := t.sink.writeLine v.display }

variable {h : Holding} {w : Ledger}

/-- A declaration or an assignment gives the value that the name has from then on. -/
theorem Recorded.binding (rec : h.Recorded w) {it : Interpreter} {n : Nat} {id i : NodeId}
    {x : Name} {k : Sink} {v r : Value} {t u : State} (inside : it.env ∈ h.scopes)
    (hold : it.code.arena.Holds id (.declare x i) ∨ it.code.arena.Holds id (.assign x i))
    (hi : it.evalWith n i ⟨h.store, k⟩ = .ok v t)
    (hrun : it.evalWith (n + 1) id ⟨h.store, k⟩ = .ok r u) :
    r = v ∧ u.store.resolve it.env x = some v := by
  have start : ledger.At w ⟨n, it, i, ⟨h.store, k⟩⟩ := rec.at rfl inside
  obtain ⟨w', hle, hfits, -⟩ := start.run
  have hout : Activation.run ⟨n, it, i, ⟨h.store, k⟩⟩ = .ok v t := hi
  rw [hout] at hfits
  have there : it.env < t.store.scopes.size :=
    (Ledger.Fits.lt_iff hfits).mpr (hle.lt (rec.scopes _ inside))
  rcases hold with hold | hold
  · rw [Interpreter.evalWith_holds hold, Interpreter.evalNode, EvalM.bind_of_ok hi,
      Interpreter.declare_run] at hrun
    split at hrun
    next => cases hrun
    next =>
      rw [Store.resolve_bind there] at hrun
      cases hrun
      exact ⟨rfl, Store.resolve_bind there x v⟩
  · rw [Interpreter.evalWith_holds hold, Interpreter.evalNode, EvalM.bind_of_ok hi,
      Interpreter.assign_run, Store.resolve_update there] at hrun
    cases hrun
    exact ⟨rfl, Store.resolve_update there x v⟩

theorem Recorded.faithful (rec : h.Recorded w) : h.Faithful where
  declared e he x v hdeclared := by
    have there := rec.fits.lt_iff.mpr (rec.scopes e he)
    unfold Store.declare at hdeclared ⊢
    split at hdeclared
    next => cases hdeclared
    next free =>
      rw [if_neg free]
      exact Store.resolve_bind there x v
  updated e he x v := Store.resolve_update (rec.fits.lt_iff.mpr (rec.scopes e he)) x v
  binding _ _ _ _ _ _ _ _ _ _ inside hold hi hrun := rec.binding inside hold hi hrun
  resolved e x v hv := by
    rw [Store.resolve_eq_findSome?] at hv
    exact List.exists_of_findSome?_eq_some hv
  passed _ _ _ _ _ _ hopen := Interpreter.forall₂_openCall hopen
  returned it n c args k scope t hopen := by
    have hcall := Interpreter.apply_eq_openCall (Interpreter.evalWith n) it c args
    rw [Interpreter.callWith, hcall, EvalM.bind_of_ok hopen]
  entered _ _ _ _ henters := henters.run_eq
  printed it n id i k v t hold hi := by
    rw [Interpreter.evalWith_holds hold, Interpreter.evalNode, EvalM.bind_of_ok hi]
    rfl

end Holding

/-- Closures keep their identity. Let `h` be any state that comes about and `h'` a later one, or the
same; both may be moments in the middle of evaluations. Closures of `h` and `h'` that compare equal
agree in all that they are made of. A function literal that is evaluated in `h'` gives a new
closure, which differs from every value that is held or bound in `h` and from every value that any
evaluation had given by then. Values are handed on as they are, and comparing them never fails and
is an equivalence. -/
theorem closures_keep_identity {h h' : Holding} (arises : h.Arises) (later : h.Later h') :
    (∀ c c', h.Has (.closure c) → h'.Has (.closure c') →
      (Value.closure c).same (.closure c') = true →
      c.params = c'.params ∧ c.body = c'.body ∧ c.code = c'.code ∧ c.env = c'.env) ∧
    (∀ (it : Interpreter) id span body params n k,
      it.code.arena.Holds id (.function span body) →
      it.code.arena.parameters? span = some params →
      ∃ c t, it.evalWith (n + 1) id ⟨h'.store, k⟩ = .ok (.closure c) t ∧
        c.params = params ∧ c.body = body ∧ c.code = it.code ∧ c.env = it.env ∧
        ∀ v, h.Has v ∨ v ∈ h.given →
          (Value.closure c).same v = false ∧ v.same (.closure c) = false) ∧
    h'.Faithful ∧
    (∀ (it : Interpreter) id l r n k u t v t',
      it.code.arena.Holds id (.binary .eq l r) →
      it.evalWith n l ⟨h'.store, k⟩ = .ok u t → it.evalWith n r t = .ok v t' →
      it.evalWith (n + 1) id ⟨h'.store, k⟩ = .ok (.bool (u.same v)) t') ∧
    Equivalence fun u v : Value => u.same v = true := by
  obtain ⟨w, rec⟩ := arises.recorded
  obtain ⟨w', hle, rec'⟩ := rec.later later
  refine ⟨fun c c' hc hc' hsame => ?_, fun it id span body params n k hold hparams => ?_,
    rec'.faithful, fun it id l r n k u t v t' hold hl hr => ?_, Value.same_equivalence⟩
  · have hentry := (hle.lists (rec.has hc c rfl)).entry
    have hid : c.id = c'.id := beq_iff_eq.mp hsame
    rw [hid, (rec'.has hc' c' rfl).entry] at hentry
    obtain rfl := Option.some.inj hentry
    exact ⟨rfl, rfl, rfl, rfl⟩
  · refine ⟨(h'.store.newClosure params body it.env it.code).1,
      ⟨(h'.store.newClosure params body it.env it.code).2, k⟩, ?_, rfl, rfl, rfl, rfl,
      fun v hv => Value.same_closure_eq_false ?_⟩
    · rw [Interpreter.evalWith_holds hold, Interpreter.evalNode, hparams]
      rfl
    · have hold : v.Meets (·.id < w.closures.length) := by
        rcases hv with hv | hv
        · intro d hd
          exact (List.getElem?_eq_some_iff.mp (rec.has hv d hd).entry).1
        · exact rec.given v hv
      intro d hd
      show d.id < h'.store.nextClosure
      rw [rec'.fits.nextClosure]
      exact Nat.lt_of_lt_of_le (hold d hd) hle.closures.length_le
  · rw [Interpreter.evalWith_holds hold, Interpreter.evalNode, EvalM.bind_of_ok hl,
      EvalM.bind_of_ok hr]
    rfl

/-- One literal, evaluated twice, gives two closures that differ. -/
theorem closures_keep_identity_two_literals :
    let code : Code := ⟨0, ⟨#[.function .empty .absent], #[], #[]⟩⟩
    let it : Interpreter := { names := .initial, code := code, env := 0 }
    ∃ c t c' t', it.evalWith 1 ⟨0⟩ ⟨({} : Store).global.2, .buffer #[]⟩ = .ok (.closure c) t ∧
      it.evalWith 1 ⟨0⟩ t = .ok (.closure c') t' ∧
      (Value.closure c').same (.closure c) = false := by
  intro code it
  let s := ({} : Store).global.2
  let made := s.newClosure [] .absent 0 code
  let first : Activation := ⟨1, it, ⟨0⟩, ⟨s, .buffer #[]⟩⟩
  have hfirst : first.run = .ok (.closure made.1) ⟨made.2, .buffer #[]⟩ := rfl
  have opened : Holding.Arises _ := .single (.global {})
  have arises : Holding.Arises _ := opened.tail (.eval (τ := first) rfl (Set.mem_insert _ _))
  obtain ⟨-, hfresh, -⟩ := closures_keep_identity arises .refl
  obtain ⟨c', t', hsecond, -, -, -, -, hnew⟩ :=
    hfresh it ⟨0⟩ .empty .absent [] 0 (.buffer #[]) ⟨rfl, rfl⟩ rfl
  have hgave : first.Gave (.closure made.1) := by
    rw [Activation.Gave, hfirst]
    rfl
  exact ⟨made.1, _, c', t', hfirst, hsecond, (hnew _ (.inl (.inl (.inl hgave)))).1⟩

end Treewalk
