import Treewalk.Proofs.Effects

/-! Wherever the evaluator on nodes ends, the rules on trees allow it to end so. The proof goes by
the fuel, and for one amount of fuel by the tree, since a list of statements with one entry spends
no fuel of its own. -/

namespace Treewalk

/-- If the computation came to its end, then to one that `P` allows. -/
def Outcome.Allowed (names : Interner) (k : Sink) (P : Except EvalError Datum → Memory → Prop)
    (s : State) (r : Outcome Value) : Prop :=
  r.Finished → ∃ w μ, P w μ ∧ r.Represents names k (w, μ) ∧ s.store.Grows r.state.store

namespace Outcome.Allowed

variable {names : Interner} {k : Sink} {P Q : Except EvalError Datum → Memory → Prop}
  {s s' : State} {μ : Memory}

theorem value {v : Value} {d : Datum} (h : P (.ok d) μ) (hv : v.Represents names s'.store d)
    (hs : s'.Represents names k μ) (grown : s.store.Grows s'.store) :
    Allowed names k P s (.ok v s') :=
  fun _ => ⟨.ok d, μ, h, .ok hv hs, grown⟩

theorem error {c : EvalError} (h : P (.error c) μ) (hs : s'.Represents names k μ)
    (grown : s.store.Grows s'.store) : Allowed names k P s (.error (.error c) s') :=
  fun _ => ⟨.error c, μ, h, .error hs, grown⟩

theorem mono {r : Outcome Value} (h : Allowed names k P s r) (hPQ : ∀ w μ, P w μ → Q w μ) :
    Allowed names k Q s r := by
  intro finished
  obtain ⟨w, μ, hP, hr, grown⟩ := h finished
  exact ⟨w, μ, hPQ w μ hP, hr, grown⟩

theorem step {r : Outcome Value} (h : Allowed names k P s' r) (grown : s.store.Grows s'.store) :
    Allowed names k P s r := by
  intro finished
  obtain ⟨w, μ, hP, hr, grown'⟩ := h finished
  exact ⟨w, μ, hP, hr, grown.trans grown'⟩

theorem bind {m : EvalM Value} {f : Value → EvalM Value} (h : Allowed names k P s (m s))
    (failed : ∀ c μ, P (.error c) μ → Q (.error c) μ)
    (next : ∀ v s' d μ, P (.ok d) μ → v.Represents names s'.store d → s'.Represents names k μ →
      s.store.Grows s'.store → Allowed names k Q s' (f v s')) :
    Allowed names k Q s ((m >>= f) s) := by
  intro finished
  simp only [Bind.bind, EStateM.bind] at finished ⊢
  cases hm : m s with
  | ok v s' =>
    simp only [hm] at finished ⊢
    obtain ⟨_, _, hP, hr, grown⟩ := h (by rw [hm]; trivial)
    rw [hm] at hr grown
    cases hr with
    | ok hv hs => exact (next v s' _ _ hP hv hs grown).step grown finished
  | error e s' =>
    simp only [hm] at finished ⊢
    obtain ⟨_, _, hP, hr, grown⟩ := h (by rw [hm]; exact finished)
    rw [hm] at hr grown
    cases hr with
    | error hs => exact error (failed _ _ hP) hs grown finished

theorem ofExcept {x : Except EvalError Value} {w : Except EvalError Datum} (h : P w μ)
    (hx : ExceptAlike (Value.Represents names s.store) x w) (hs : s.Represents names k μ) :
    Allowed names k P s (EvalM.ofExcept x s) := by
  cases hx with
  | ok hv => exact value h hv hs (.refl _)
  | error => exact error h hs (.refl _)

end Outcome.Allowed

namespace Interpreter

open Outcome (Allowed)

/-- With fuel `n`, the evaluator ends as the rules allow. -/
def Sound (n : Nat) : Prop :=
  ∀ {it : Interpreter} {k : Sink} {limit : Option Nat} {depth : Nat} {env : List ScopeId}
    {s : State} {μ : Memory} {t : Term} {id : NodeId}, it.Follows k limit depth env s μ →
    t.Denotes it.names it.code.arena id →
    Allowed it.names k (Eval limit depth env (.tree t) μ) s (it.evalWith n id s)

section Parts

variable {n : Nat} {it : Interpreter} {k : Sink} {limit : Option Nat} {depth : Nat}
  {env : List ScopeId} {s : State} {μ : Memory}

theorem sound_apply (sound : Sound n) {c : Closure} {f : Lambda} {vs : List Value}
    {ds : List Datum} (hit : it.Follows k limit depth env s μ)
    (hc : c.Represents it.names s.store f)
    (hvs : List.Forall₂ (Value.Represents it.names s.store) vs ds) :
    Allowed it.names k (Eval limit depth env (.call f ds []) μ) s
      (apply (evalWith n) it c vs s) := by
  have hlength : vs.length = ds.length := hvs.length_eq
  have harity : c.arity = f.params.length := hc.params.length_eq
  by_cases fits : ds.length = f.params.length
  · by_cases room : ∀ k, limit = some k → depth < k
    · have room' := room
      rw [← hit.limit, ← hit.depth] at room'
      obtain ⟨s', hs', grown, around, hrun⟩ :=
        apply_represents hit.names hit.state hc hvs fits room'
      rw [hrun]
      cases declared : μ.push.declareAll μ.next (f.params.zip ds) with
      | mk taken μ₁ =>
        rw [declared] at hs'
        cases taken with
        | some x => exact .error (.parameter fits room declared) hs' grown
        | none =>
          have hbody := sound (hit.enter around hs') hc.body
          exact (hbody.step grown).mono fun w μ₂ => .body fits room declared
    · obtain ⟨l, bound, deep⟩ : ∃ l, limit = some l ∧ l ≤ depth := by
        simpa only [not_forall, Nat.not_lt, exists_prop] using room
      rw [apply_overflow (by rw [hlength, harity, fits]) (hit.limit.trans bound)
        (hit.depth ▸ deep)]
      exact .error (.overflow fits bound deep) hit.state (.refl _)
  · rw [apply_arity (by rw [hlength, harity]; exact fits), hlength, harity]
    exact .error (.arity fits) hit.state (.refl _)

/-- What is left of a call: its arguments one by one, then its body. -/
theorem sound_callRest (sound : Sound n) {ts : List Term} {ids : List NodeId} {c : Closure}
    {f : Lambda} {vs : List Value} {ds : List Datum} (hit : it.Follows k limit depth env s μ)
    (hc : c.Represents it.names s.store f)
    (hvs : List.Forall₂ (Value.Represents it.names s.store) vs ds)
    (hts : Tree.DenotesAll it.names it.code.arena ts ids) :
    Allowed it.names k (Eval limit depth env (.call f ds ts) μ) s
      (callRest (evalWith n) it c vs ids s) := by
  induction ts generalizing ids vs ds s μ with
  | nil =>
    obtain rfl : ids = [] := hts
    rw [callRest_nil]
    exact sound_apply sound hit hc hvs
  | cons t ts ih =>
    obtain ⟨i, rest, rfl, hi, hrest⟩ := hts
    rw [callRest_cons]
    refine (sound hit hi).bind (fun c μ₁ h => .argumentError h) fun v s₁ d μ₁ h hv hs₁ grown => ?_
    have hvs₁ := hvs.imp fun _ _ h => h.grows grown
    exact (ih (hit.after grown hs₁) (hc.grows grown) (List.rel_append hvs₁ (.cons hv .nil))
      hrest).mono fun w μ₂ => .argument h

/-- The rounds of a loop, by their number. -/
theorem sound_iterate (sound : Sound n) {c b : Term} {i j : NodeId}
    (hit : it.Follows k limit depth env s μ) (hi : c.Denotes it.names it.code.arena i)
    (hj : b.Denotes it.names it.code.arena j) (rounds : Nat) :
    Allowed it.names k (Eval limit depth env (.tree (.loop c b)) μ) s
      (iterate (it.evalWith n i) (it.evalWith n j) rounds s) := by
  induction rounds generalizing s μ with
  | zero => exact fun finished => finished.elim
  | succ rounds ih =>
    refine (sound hit hi).bind (fun c μ₁ h => .operandError rfl h)
      fun v s₁ d μ₁ htest hv hs₁ grown₁ => ?_
    have hit₁ := hit.after grown₁ hs₁
    cases hv with
    | @bool b =>
      cases b with
      | true =>
        refine (sound hit₁ hj).bind (fun c μ₂ h => .loopError htest h)
          fun _ s₂ d μ₂ hbody _ hs₂ grown₂ => ?_
        exact (ih (hit₁.after grown₂ hs₂)).mono fun w μ₃ => .loopNext htest hbody
      | false => exact .value (.loopDone htest) .null hs₁ (.refl _)
    | _ => exact .error (.loopType htest (by simp)) hs₁ (.refl _)

end Parts

mutual

theorem sound_tree {n : Nat} (sound : Sound n) (t : Term) {it : Interpreter} {k : Sink}
    {limit : Option Nat} {depth : Nat} {env : List ScopeId} {s : State} {μ : Memory} {id : NodeId}
    (hit : it.Follows k limit depth env s μ) (h : t.Denotes it.names it.code.arena id) :
    Allowed it.names k (Eval limit depth env (.tree t) μ) s (it.evalWith (n + 1) id s) := by
  match t with
  | .absent =>
    obtain rfl : id = .absent := h
    exact .value (.absent rfl) .null hit.state (.refl _)
  | .int i =>
    rw [evalWith_holds h]
    exact .value .int .int hit.state (.refl _)
  | .bool b =>
    rw [evalWith_holds h]
    exact .value .bool .bool hit.state (.refl _)
  | .null =>
    rw [evalWith_holds h]
    exact .value .null .null hit.state (.refl _)
  | .ident x =>
    obtain ⟨y, hy, hold⟩ := h
    rw [evalWith_holds hold]
    exact .value .ident (.getD (hit.state.store.resolve hit.around hy)) hit.state (.refl _)
  | .print e =>
    obtain ⟨i, hold, hi⟩ := h
    rw [evalWith_holds hold]
    refine (sound hit hi).bind (fun c μ₁ h => .operandError rfl h) fun v s₁ d μ₁ h hv hs₁ _ => ?_
    exact .value (.print h) hv (hs₁.print hv) (.refl _)
  | .binary token l r =>
    cases known : Operator.ofToken? token with
    | none =>
      obtain rfl : id = .absent := by simpa only [Tree.Denotes, known] using h
      exact .value (.absent (by simp [Tree.isPresent, known])) .null hit.state (.refl _)
    | some op =>
      have first : Tree.operand? (.binary token l r) = some l := by simp [Tree.operand?, known]
      simp only [Tree.Denotes, known] at h
      obtain ⟨i, j, hold, hi, hj⟩ := h
      rw [evalWith_holds hold]
      refine (sound hit hi).bind (fun c μ₁ h => .operandError first h)
        fun v s₁ d μ₁ hl hv hs₁ grown₁ => ?_
      refine (sound (hit.after grown₁ hs₁) hj).bind (fun c μ₂ h => .binaryError known hl h)
        fun v' s₂ d' μ₂ hr hv' hs₂ grown₂ => ?_
      exact .ofExcept (.binary known hl hr) (Operator.apply_alike known (hv.grows grown₂) hv') hs₂
  | .cond c t e =>
    obtain ⟨i, j, l, hold, hi, hj, hl⟩ := h
    rw [evalWith_holds hold]
    refine (sound hit hi).bind (fun c μ₁ h => .operandError rfl h)
      fun v s₁ d μ₁ htest hv hs₁ grown₁ => ?_
    have hit₁ := hit.after grown₁ hs₁
    cases hv with
    | @bool b =>
      cases b with
      | true => exact (sound hit₁ hj).mono fun w μ₂ => .condTrue htest
      | false => exact (sound hit₁ hl).mono fun w μ₂ => .condFalse htest
    | _ => exact .error (.condType htest (by simp)) hs₁ (.refl _)
  | .loop c b =>
    obtain ⟨i, j, hold, hi, hj⟩ := h
    rw [evalWith_holds hold]
    exact sound_iterate sound hit hi hj n
  | .pair a b =>
    obtain ⟨i, j, hold, hi, hj⟩ := h
    rw [evalWith_holds hold]
    refine (sound hit hi).bind (fun c μ₁ h => .operandError rfl h)
      fun _ s₁ d μ₁ ha _ hs₁ grown₁ => ?_
    exact (sound (hit.after grown₁ hs₁) hj).mono fun w μ₂ => .pair ha
  | .seq ts => exact sound_seq sound ts hit h
  | .block ts => exact (sound_seq sound ts hit h).mono fun w μ₁ => .block
  | .scopedBlock ts =>
    cases present : Tree.anyPresent ts with
    | false =>
      rw [Tree.Denotes, if_neg (by simp [present])] at h
      subst h
      exact .value (.absent present) .null hit.state (.refl _)
    | true =>
      rw [Tree.Denotes, if_pos present] at h
      obtain ⟨i, hold, hi⟩ := h
      rw [evalWith_holds hold]
      have hbody := sound (t := .seq ts) hit.child hi
      exact (hbody.step (.child s.store it.env)).mono fun w μ₁ => .scopedBlock present
  | .declare x e =>
    obtain ⟨y, i, hy, hold, hi⟩ := h
    obtain ⟨outer, rfl⟩ := hit.around.head
    rw [evalWith_holds hold]
    refine (sound hit hi).bind (fun c μ₁ h => .operandError rfl h)
      fun v s₁ d μ₁ h hv hs₁ grown₁ => ?_
    show Allowed _ _ _ _ ((do it.declareIn it.env y v; it.lookup y : EvalM Value) s₁)
    rw [declare_run, hs₁.store.bindsLocally hy]
    cases old : μ₁.vars it.env x with
    | some d' =>
      rw [Option.isSome_some, if_pos rfl, Interner.lookup_of_get? hy]
      exact .error (.duplicate h (by rw [old]; rfl)) hs₁ (.refl _)
    | none =>
      have hstore := hs₁.store.bind hit.names hy hv it.env
      have grown₂ : s₁.store.Grows (s₁.store.bind it.env y v) := .bind s₁.store it.env y v
      have hread := hstore.resolve (hit.around.grows (grown₁.trans grown₂)) hy
      exact .value (.declare h old) (.getD hread) (hs₁.withStore hstore rfl) grown₂
  | .assign x e =>
    obtain ⟨y, i, hy, hold, hi⟩ := h
    rw [evalWith_holds hold]
    refine (sound hit hi).bind (fun c μ₁ h => .operandError rfl h)
      fun v s₁ d μ₁ h hv hs₁ grown₁ => ?_
    have hstore := hs₁.store.update hit.names (hit.around.grows grown₁) hy hv
    have grown₂ : s₁.store.Grows (s₁.store.update it.env y v).2 := .update s₁.store it.env y v
    have hread := hstore.resolve (hit.around.grows (grown₁.trans grown₂)) hy
    have hs₂ := hs₁.withStore hstore (Memory.output_assign ..)
    exact .value (.assign h) (.getD hread) hs₂ grown₂
  | .function params b =>
    obtain ⟨span, ys, i, hold, hspan, hys, hi⟩ := h
    have hstore := hit.state.store.newClosure ys i it.env it.code
    have hc := hit.state.store.lambda hit.around hys hi
    rw [evalWith_holds hold]
    simp only [evalNode, hspan]
    exact .value .function (.closure hc) (hit.state.withStore hstore rfl)
      (.newClosure s.store ys i it.env it.code)
  | .call f args =>
    obtain ⟨i, span, ids, hold, hi, hspan, hids⟩ := h
    rw [evalWith_holds hold, evalNode_call hspan]
    refine (sound hit hi).bind (fun c μ₁ h => .operandError rfl h)
      fun v s₁ d μ₁ h hv hs₁ grown₁ => ?_
    cases hv with
    | closure hc =>
      exact (sound_callRest sound (hit.after grown₁ hs₁) hc .nil hids).mono fun w μ₂ => .call h
    | _ => exact .error (.notCallable h (by simp)) hs₁ (.refl _)

theorem sound_seq {n : Nat} (sound : Sound n) (ts : List Term) {it : Interpreter} {k : Sink}
    {limit : Option Nat} {depth : Nat} {env : List ScopeId} {s : State} {μ : Memory} {id : NodeId}
    (hit : it.Follows k limit depth env s μ)
    (h : Tree.DenotesSeq it.names it.code.arena ts id) :
    Allowed it.names k (Eval limit depth env (.tree (.seq ts)) μ) s
      (it.evalWith (n + 1) id s) := by
  match ts with
  | [] =>
    obtain rfl : id = .absent := h
    exact .value (.absent rfl) .null hit.state (.refl _)
  | t :: ts =>
    cases here : t.isPresent with
    | false =>
      rw [Tree.DenotesSeq, if_neg (by simp [here])] at h
      exact (sound_seq sound ts hit h).mono fun w μ₁ => .seqSkip here
    | true =>
      cases more : Tree.anyPresent ts with
      | false =>
        rw [Tree.DenotesSeq, if_pos here, if_neg (by simp [more])] at h
        exact (sound_tree sound t hit h).mono fun w μ₁ => .seqLast here more
      | true =>
        rw [Tree.DenotesSeq, if_pos here, if_pos more] at h
        obtain ⟨i, j, hold, hi, hj⟩ := h
        rw [evalWith_holds hold]
        refine (sound hit hi).bind (fun c μ₁ h => .seqError here more h)
          fun _ s₁ d μ₁ h _ hs₁ grown₁ => ?_
        exact (sound (t := .seq ts) (hit.after grown₁ hs₁) hj).mono fun w μ₂ => .seqNext here more h

end

theorem evalWith_sound (n : Nat) : Sound n := by
  induction n with
  | zero => exact fun _ _ finished => finished.elim
  | succ n ih => exact fun {_ _ _ _ _ _ _ t _} hit h => sound_tree ih t hit h

end Interpreter

end Treewalk
