import Treewalk.Proofs.Effects

/-! Whatever the rules on trees allow, the evaluator on nodes reaches with enough fuel. The proof
follows the rules and carries along a state that represents the memory. -/

namespace Treewalk

/-- With enough fuel, `m` ends in an outcome that represents `w` and `μ`. -/
def Reaches (names : Interner) (k : Sink) (m : Nat → EvalM Value) (s : State)
    (w : Except EvalError Datum) (μ : Memory) : Prop :=
  ∃ r, EvalM.Ends m s r ∧ r.Represents names k (w, μ) ∧ s.store.Grows r.state.store

namespace Reaches

variable {names : Interner} {k : Sink} {m : Nat → EvalM Value} {s s' : State}
  {w : Except EvalError Datum} {μ μ' : Memory}

theorem value {v : Value} {d : Datum} (h : ∀ n, m n s = .ok v s')
    (hv : v.Represents names s'.store d) (hs : s'.Represents names k μ)
    (grown : s.store.Grows s'.store) : Reaches names k m s (.ok d) μ :=
  ⟨.ok v s', .of_eq trivial h, .ok hv hs, grown⟩

theorem error {c : EvalError} (h : ∀ n, m n s = .error (.error c) s')
    (hs : s'.Represents names k μ) (grown : s.store.Grows s'.store) :
    Reaches names k m s (.error c) μ :=
  ⟨.error (.error c) s', .of_eq trivial h, .error hs, grown⟩

theorem bind {f : Nat → Value → EvalM Value} {d : Datum} (h : Reaches names k m s (.ok d) μ)
    (hf : ∀ v s', v.Represents names s'.store d → s'.Represents names k μ →
      s.store.Grows s'.store → Reaches names k (fun n => f n v) s' w μ') :
    Reaches names k (fun n => m n >>= f n) s w μ' := by
  obtain ⟨r, hm, hr, grown⟩ := h
  cases hr with
  | @ok v s' d μ hv hs =>
    obtain ⟨r', hf', hr', grown'⟩ := hf v s' hv hs grown
    exact ⟨r', hm.bind hf', hr', grown.trans grown'⟩

theorem bind_error {f : Nat → Value → EvalM Value} {c : EvalError}
    (h : Reaches names k m s (.error c) μ) :
    Reaches names k (fun n => m n >>= f n) s (.error c) μ := by
  obtain ⟨r, hm, hr, grown⟩ := h
  cases hr with
  | @error c s' μ hs => exact ⟨_, hm.bind_error, .error hs, grown⟩

theorem ofExcept {x : Except EvalError Value}
    (hx : ExceptAlike (Value.Represents names s.store) x w) (hs : s.Represents names k μ) :
    Reaches names k (fun _ => EvalM.ofExcept x) s w μ := by
  cases hx with
  | ok hv => exact value (fun _ => rfl) hv hs (.refl _)
  | error => exact error (fun _ => rfl) hs (.refl _)

theorem absent {it : Interpreter} (hs : s.Represents names k μ) :
    Reaches names k (fun n => it.evalWith n .absent) s (.ok .null) μ := by
  have hnull : EvalM.Ends (fun _ => pure Value.null) s (.ok .null s) := .of_eq trivial fun _ => rfl
  exact ⟨_, hnull.of_succ fun n => rfl, .ok .null hs, .refl _⟩

theorem node {it : Interpreter} {id : NodeId} {node : Node} (h : it.code.arena.Holds id node)
    (hm : Reaches names k (fun n => it.evalNode (Interpreter.evalWith n) n node) s w μ) :
    Reaches names k (fun n => it.evalWith n id) s w μ := by
  obtain ⟨r, hm, hr, grown⟩ := hm
  exact ⟨r, hm.of_succ fun n => by rw [Interpreter.evalWith_holds h], hr, grown⟩

/-- A first step without a value of its own leaves the rest to be reached. -/
theorem step {m' : Nat → EvalM Value} (hm : Reaches names k m' s' w μ)
    (h : ∀ n, m n s = m' n s') (grown : s.store.Grows s'.store) : Reaches names k m s w μ := by
  obtain ⟨r, hm, hr, grown'⟩ := hm
  obtain ⟨n, hn⟩ := hm.settles
  exact ⟨r, ⟨hm.finished, n, fun j hj => (h j).trans (hn j hj)⟩, hr, grown.trans grown'⟩

theorem shift (h : Reaches names k m s w μ) : Reaches names k (fun n => m (n + 1)) s w μ := by
  obtain ⟨r, hm, hr, grown⟩ := h
  exact ⟨r, hm.shift, hr, grown⟩

/-- A loop starts with its condition. -/
theorem loop {it : Interpreter} {id i j : NodeId} (h : it.code.arena.Holds id (.loop i j))
    (hm : Reaches names k (fun n => it.evalWith (n + 1) i >>= fun v =>
      match v with
      | .bool true => do
        let _ ← it.evalWith (n + 1) j
        Interpreter.iterate (it.evalWith (n + 1) i) (it.evalWith (n + 1) j) n
      | .bool false => pure .null
      | other => EvalM.fail (.typeMismatch "while condition" "bool" other.typeName)) s w μ) :
    Reaches names k (fun n => it.evalWith n id) s w μ := by
  obtain ⟨r, hm, hr, grown⟩ := hm
  have hnode : EvalM.Ends (fun n => it.evalWith (n + 1) id) s r :=
    hm.of_succ fun n => by rw [Interpreter.evalWith_holds h]; rfl
  exact ⟨r, hnode.of_succ fun n => rfl, hr, grown⟩

end Reaches

namespace Tree

/-- The part that is evaluated first comes first in the evaluation of the whole. -/
theorem evalWith_operand {it : Interpreter} {t u : Term} {id : NodeId}
    (h : t.Denotes it.names it.code.arena id) (first : t.operand? = some u) :
    ∃ i, u.Denotes it.names it.code.arena i ∧
      ∀ n, ∃ f : Value → EvalM Value, it.evalWith (n + 2) id = it.evalWith (n + 1) i >>= f := by
  cases t with
  | print e =>
    obtain rfl := Option.some.inj first
    obtain ⟨i, hold, hi⟩ := h
    exact ⟨i, hi, fun n => ⟨_, by rw [Interpreter.evalWith_holds hold]; rfl⟩⟩
  | declare x e | assign x e =>
    obtain rfl := Option.some.inj first
    obtain ⟨y, i, hy, hold, hi⟩ := h
    exact ⟨i, hi, fun n => ⟨_, by rw [Interpreter.evalWith_holds hold]; rfl⟩⟩
  | binary token l r =>
    cases hop : Operator.ofToken? token with
    | none => simp [operand?, hop] at first
    | some op =>
      obtain rfl : l = u := by simpa [operand?, hop] using first
      simp only [Denotes, hop] at h
      obtain ⟨i, j, hold, hi, hj⟩ := h
      exact ⟨i, hi, fun n => ⟨_, by rw [Interpreter.evalWith_holds hold]; rfl⟩⟩
  | cond c t e =>
    obtain rfl := Option.some.inj first
    obtain ⟨i, j, l, hold, hi, hj, hl⟩ := h
    exact ⟨i, hi, fun n => ⟨_, by rw [Interpreter.evalWith_holds hold]; rfl⟩⟩
  | loop c b | pair c b =>
    obtain rfl := Option.some.inj first
    obtain ⟨i, j, hold, hi, hj⟩ := h
    exact ⟨i, hi, fun n => ⟨_, by rw [Interpreter.evalWith_holds hold]; rfl⟩⟩
  | call f args =>
    obtain rfl := Option.some.inj first
    obtain ⟨i, span, ids, hold, hi, hids⟩ := h
    exact ⟨i, hi, fun n => ⟨_, by rw [Interpreter.evalWith_holds hold]; rfl⟩⟩
  | _ => cases first

theorem ends_operand_error {it : Interpreter} {t u : Term} {id : NodeId}
    (h : t.Denotes it.names it.code.arena id) (first : t.operand? = some u) :
    ∃ i, u.Denotes it.names it.code.arena i ∧
      ∀ {s s' : State} {e : Halt}, it.Ends i s (.error e s') → it.Ends id s (.error e s') := by
  obtain ⟨i, hi, hstep⟩ := evalWith_operand h first
  refine ⟨i, hi, fun {s s' e} hends => ?_⟩
  obtain ⟨n, hn⟩ := hends.settles
  obtain ⟨f, hf⟩ := hstep n
  refine Interpreter.ends_of_evalWith (n := n + 2) ?_ hends.finished
  rw [hf]
  simp only [Bind.bind, EStateM.bind, hn (n + 1) (by omega)]

end Tree

/-- One more round of a loop, after its condition was true and its body gave a value. -/
theorem Interpreter.Ends.loop_next {it : Interpreter} {id i j : NodeId} {s s₁ s₂ : State}
    {v : Value} {r : Outcome Value} (hold : it.code.arena.Holds id (.loop i j))
    (test : it.Ends i s (.ok (.bool true) s₁)) (body : it.Ends j s₁ (.ok v s₂))
    (again : it.Ends id s₂ r) : it.Ends id s r := by
  obtain ⟨n₁, h₁⟩ := test.settles
  obtain ⟨n₂, h₂⟩ := body.settles
  obtain ⟨n₃, h₃⟩ := again.settles
  let n := max n₁ (max n₂ n₃)
  have htest : it.evalWith (n + 1) i s = .ok (.bool true) s₁ := h₁ (n + 1) (by omega)
  have hbody : it.evalWith (n + 1) j s₁ = .ok v s₂ := h₂ (n + 1) (by omega)
  have hagain : iterate (it.evalWith n i) (it.evalWith n j) n s₂ = r := by
    have := h₃ (n + 1) (by omega)
    rwa [evalWith_holds hold] at this
  -- the rounds after the first run with one more unit of fuel than the loop from `s₂`
  have hmore : iterate (it.evalWith (n + 1) i) (it.evalWith (n + 1) j) n s₂ = r := by
    have below := (evalWith_below_succ n it i).iterate (evalWith_below_succ n it j) (Nat.le_refl n)
    rcases below s₂ with ⟨t, ht⟩ | ht
    · rw [← hagain, ht] at again
      exact again.finished.elim
    · rw [← ht, hagain]
  refine ends_of_evalWith (n := n + 2) ?_ again.finished
  rw [evalWith_holds hold]
  simp only [evalNode, iterate, Bind.bind, EStateM.bind, htest, hbody, hmore]

/-- The computation with fuel that performs a task on nodes and values of the store `s`. -/
def Task.RunsAs (it : Interpreter) (s : Store) : Task → (Nat → EvalM Value) → Prop
  | .tree t, m =>
    ∃ id, t.Denotes it.names it.code.arena id ∧ m = fun n => it.evalWith n id
  | .call f ds ts, m =>
    ∃ c vs ids, c.Represents it.names s f ∧
      List.Forall₂ (Value.Represents it.names s) vs ds ∧
      Tree.DenotesAll it.names it.code.arena ts ids ∧
      m = fun n => Interpreter.callRest (Interpreter.evalWith n) it c vs ids

/-- What the rules derive, the evaluator reaches with enough fuel. -/
theorem Eval.reaches {limit : Option Nat} {depth : Nat} {env : List ScopeId} {task : Task}
    {μ μ' : Memory} {w : Except EvalError Datum} (h : Eval limit depth env task μ w μ') {k : Sink}
    {it : Interpreter} {s : State} (hit : it.Follows k limit depth env s μ)
    {m : Nat → EvalM Value} (hm : task.RunsAs it s.store m) : Reaches it.names k m s w μ' := by
  induction h generalizing it s m with
  | absent nothing =>
    obtain ⟨id, hid, rfl⟩ := hm
    obtain rfl := Tree.eq_absent_of_denotes nothing hid
    exact .absent hit.state
  | int =>
    obtain ⟨id, hold, rfl⟩ := hm
    exact .node hold (.value (fun n => rfl) .int hit.state (.refl _))
  | bool =>
    obtain ⟨id, hold, rfl⟩ := hm
    exact .node hold (.value (fun n => rfl) .bool hit.state (.refl _))
  | null =>
    obtain ⟨id, hold, rfl⟩ := hm
    exact .node hold (.value (fun n => rfl) .null hit.state (.refl _))
  | ident =>
    obtain ⟨id, ⟨y, hy, hold⟩, rfl⟩ := hm
    have hv := hit.state.store.resolve hit.around hy
    exact .node hold (.value (fun n => rfl) (.getD hv) hit.state (.refl _))
  | operandError first _ ih =>
    obtain ⟨id, hid, rfl⟩ := hm
    obtain ⟨i, hi, hends⟩ := Tree.ends_operand_error hid first
    obtain ⟨r, hr, hrep, grown⟩ := ih hit ⟨i, hi, rfl⟩
    cases hrep with
    | error hs' => exact ⟨_, hends hr, .error hs', grown⟩
  | print _ ih =>
    obtain ⟨id, ⟨i, hold, hi⟩, rfl⟩ := hm
    refine .node hold ((ih hit ⟨i, hi, rfl⟩).bind fun v s₁ hv hs₁ _ => ?_)
    exact .value (fun n => rfl) hv (hs₁.print hv) (.refl _)
  | binary known _ _ ihl ihr =>
    obtain ⟨id, hid, rfl⟩ := hm
    simp only [Tree.Denotes, known] at hid
    obtain ⟨i, j, hold, hi, hj⟩ := hid
    refine .node hold ((ihl hit ⟨i, hi, rfl⟩).bind fun v s₁ hv hs₁ grown₁ => ?_)
    refine (ihr (hit.after grown₁ hs₁) ⟨j, hj, rfl⟩).bind fun v' s₂ hv' hs₂ grown₂ => ?_
    exact .ofExcept (Operator.apply_alike known (hv.grows grown₂) hv') hs₂
  | binaryError known _ _ ihl ihr =>
    obtain ⟨id, hid, rfl⟩ := hm
    simp only [Tree.Denotes, known] at hid
    obtain ⟨i, j, hold, hi, hj⟩ := hid
    refine .node hold ((ihl hit ⟨i, hi, rfl⟩).bind fun v s₁ _ hs₁ grown₁ => ?_)
    exact (ihr (hit.after grown₁ hs₁) ⟨j, hj, rfl⟩).bind_error
  | condTrue _ _ ihc iht =>
    obtain ⟨id, ⟨i, j, l, hold, hi, hj, hl⟩, rfl⟩ := hm
    refine .node hold ((ihc hit ⟨i, hi, rfl⟩).bind fun v s₁ hv hs₁ grown₁ => ?_)
    cases hv
    exact iht (hit.after grown₁ hs₁) ⟨j, hj, rfl⟩
  | condFalse _ _ ihc ihe =>
    obtain ⟨id, ⟨i, j, l, hold, hi, hj, hl⟩, rfl⟩ := hm
    refine .node hold ((ihc hit ⟨i, hi, rfl⟩).bind fun v s₁ hv hs₁ grown₁ => ?_)
    cases hv
    exact ihe (hit.after grown₁ hs₁) ⟨l, hl, rfl⟩
  | condType _ other ihc =>
    obtain ⟨id, ⟨i, j, l, hold, hi, hj, hl⟩, rfl⟩ := hm
    refine .node hold ((ihc hit ⟨i, hi, rfl⟩).bind fun v s₁ hv hs₁ _ => ?_)
    cases hv with
    | bool => exact absurd rfl (other _)
    | _ => exact .error (fun n => rfl) hs₁ (.refl _)
  | loopDone _ ihc =>
    obtain ⟨id, ⟨i, j, hold, hi, hj⟩, rfl⟩ := hm
    refine .loop hold ((ihc hit ⟨i, hi, rfl⟩).shift.bind fun v s₁ hv hs₁ _ => ?_)
    cases hv
    exact .value (fun n => rfl) .null hs₁ (.refl _)
  | loopNext _ _ _ ihc ihb ih =>
    obtain ⟨id, ⟨i, j, hold, hi, hj⟩, rfl⟩ := hm
    obtain ⟨r₁, test, hr₁, grown₁⟩ := ihc hit ⟨i, hi, rfl⟩
    cases hr₁ with
    | ok hv hs₁ =>
      cases hv
      obtain ⟨r₂, body, hr₂, grown₂⟩ := ihb (hit.after grown₁ hs₁) ⟨j, hj, rfl⟩
      cases hr₂ with
      | ok _ hs₂ =>
        obtain ⟨r₃, again, hr₃, grown₃⟩ :=
          ih (hit.after (grown₁.trans grown₂) hs₂) ⟨id, ⟨i, j, hold, hi, hj⟩, rfl⟩
        exact ⟨r₃, Interpreter.Ends.loop_next hold test body again, hr₃,
          (grown₁.trans grown₂).trans grown₃⟩
  | loopError _ _ ihc ihb =>
    obtain ⟨id, ⟨i, j, hold, hi, hj⟩, rfl⟩ := hm
    refine .loop hold ((ihc hit ⟨i, hi, rfl⟩).shift.bind fun v s₁ hv hs₁ grown₁ => ?_)
    cases hv
    exact (ihb (hit.after grown₁ hs₁) ⟨j, hj, rfl⟩).shift.bind_error
  | loopType _ other ihc =>
    obtain ⟨id, ⟨i, j, hold, hi, hj⟩, rfl⟩ := hm
    refine .loop hold ((ihc hit ⟨i, hi, rfl⟩).shift.bind fun v s₁ hv hs₁ _ => ?_)
    cases hv with
    | bool => exact absurd rfl (other _)
    | _ => exact .error (fun n => rfl) hs₁ (.refl _)
  | pair _ _ iha ihb =>
    obtain ⟨id, ⟨i, j, hold, hi, hj⟩, rfl⟩ := hm
    refine .node hold ((iha hit ⟨i, hi, rfl⟩).bind fun v s₁ _ hs₁ grown₁ => ?_)
    exact ihb (hit.after grown₁ hs₁) ⟨j, hj, rfl⟩
  | seqSkip nothing _ ih =>
    obtain ⟨id, hid, rfl⟩ := hm
    rw [Tree.Denotes, Tree.DenotesSeq, if_neg (by simp [nothing])] at hid
    exact ih hit ⟨id, hid, rfl⟩
  | seqLast here last _ ih =>
    obtain ⟨id, hid, rfl⟩ := hm
    rw [Tree.Denotes, Tree.DenotesSeq, if_pos here, if_neg (by simp [last])] at hid
    exact ih hit ⟨id, hid, rfl⟩
  | seqNext here more _ _ iht ihts =>
    obtain ⟨id, hid, rfl⟩ := hm
    rw [Tree.Denotes, Tree.DenotesSeq, if_pos here, if_pos more] at hid
    obtain ⟨i, j, hold, hi, hj⟩ := hid
    refine .node hold ((iht hit ⟨i, hi, rfl⟩).bind fun v s₁ _ hs₁ grown₁ => ?_)
    exact ihts (hit.after grown₁ hs₁) ⟨j, hj, rfl⟩
  | seqError here more _ iht =>
    obtain ⟨id, hid, rfl⟩ := hm
    rw [Tree.Denotes, Tree.DenotesSeq, if_pos here, if_pos more] at hid
    obtain ⟨i, j, hold, hi, hj⟩ := hid
    exact .node hold (iht hit ⟨i, hi, rfl⟩).bind_error
  | block _ ih =>
    obtain ⟨id, hid, rfl⟩ := hm
    exact ih hit ⟨id, hid, rfl⟩
  | scopedBlock present _ ih =>
    obtain ⟨id, hid, rfl⟩ := hm
    rw [Tree.Denotes, if_pos present] at hid
    obtain ⟨i, hold, hi⟩ := hid
    have hbody := ih hit.child ⟨i, hi, rfl⟩
    exact .node hold (hbody.step (fun n => rfl) (.child s.store it.env))
  | declare _ fresh ih =>
    obtain ⟨id, ⟨y, i, hy, hold, hi⟩, rfl⟩ := hm
    refine .node hold ((ih hit ⟨i, hi, rfl⟩).bind fun v s₁ hv hs₁ grown₁ => ?_)
    obtain ⟨_, hhead⟩ := hit.around.head
    obtain rfl := (List.cons.inj hhead).1
    have hfree : ¬ s₁.store.bindsLocally it.env y := by simp [hs₁.store.bindsLocally hy, fresh]
    have hstore := hs₁.store.bind hit.names hy hv it.env
    have grown₂ : s₁.store.Grows (s₁.store.bind it.env y v) := .bind s₁.store it.env y v
    have hread := hstore.resolve (hit.around.grows (grown₁.trans grown₂)) hy
    refine .value (fun n => ?_) (.getD hread) (hs₁.withStore hstore rfl) grown₂
    exact (Interpreter.declare_run it y v s₁).trans (if_neg hfree)
  | duplicate _ taken ih =>
    obtain ⟨id, ⟨y, i, hy, hold, hi⟩, rfl⟩ := hm
    refine .node hold ((ih hit ⟨i, hi, rfl⟩).bind fun v s₁ hv hs₁ grown₁ => ?_)
    obtain ⟨_, hhead⟩ := hit.around.head
    obtain rfl := (List.cons.inj hhead).1
    have htaken : s₁.store.bindsLocally it.env y := by rw [hs₁.store.bindsLocally hy, taken]
    refine .error (fun n => ?_) hs₁ (.refl _)
    rw [← Interner.lookup_of_get? hy]
    exact (Interpreter.declare_run it y v s₁).trans (if_pos htaken)
  | assign _ ih =>
    obtain ⟨id, ⟨y, i, hy, hold, hi⟩, rfl⟩ := hm
    refine .node hold ((ih hit ⟨i, hi, rfl⟩).bind fun v s₁ hv hs₁ grown₁ => ?_)
    have hstore := hs₁.store.update hit.names (hit.around.grows grown₁) hy hv
    have grown₂ : s₁.store.Grows (s₁.store.update it.env y v).2 := .update s₁.store it.env y v
    have hread := hstore.resolve (hit.around.grows (grown₁.trans grown₂)) hy
    have hs₂ := hs₁.withStore hstore (Memory.output_assign ..)
    exact .value (fun n => rfl) (.getD hread) hs₂ grown₂
  | function =>
    obtain ⟨id, ⟨span, ys, i, hold, hspan, hys, hi⟩, rfl⟩ := hm
    have hstore := hit.state.store.newClosure ys i it.env it.code
    have hc := hit.state.store.lambda hit.around hys hi
    refine .node hold (.value (fun n => ?_) (.closure hc) (hit.state.withStore hstore rfl)
      (.newClosure s.store ys i it.env it.code))
    simp only [Interpreter.evalNode, hspan]
    rfl
  | notCallable _ other ih =>
    obtain ⟨id, ⟨i, span, ids, hold, hi, hspan, hids⟩, rfl⟩ := hm
    refine .node hold ?_
    simp only [Interpreter.evalNode_call hspan]
    refine (ih hit ⟨i, hi, rfl⟩).bind fun v s₁ hv hs₁ _ => ?_
    cases hv with
    | closure => exact absurd rfl (other _)
    | _ => exact .error (fun n => rfl) hs₁ (.refl _)
  | call _ _ ihf ih =>
    obtain ⟨id, ⟨i, span, ids, hold, hi, hspan, hids⟩, rfl⟩ := hm
    refine .node hold ?_
    simp only [Interpreter.evalNode_call hspan]
    refine (ihf hit ⟨i, hi, rfl⟩).bind fun v s₁ hv hs₁ grown₁ => ?_
    cases hv with
    | closure hc => exact ih (hit.after grown₁ hs₁) ⟨_, [], ids, hc, .nil, hids, rfl⟩
  | argument _ _ iht ih =>
    obtain ⟨c, vs, ids, hc, hvs, ⟨i, rest, rfl, hi, hrest⟩, rfl⟩ := hm
    simp only [Interpreter.callRest_cons]
    refine (iht hit ⟨i, hi, rfl⟩).bind fun v s₁ hv hs₁ grown₁ => ?_
    have hvs₁ := hvs.imp fun _ _ h => h.grows grown₁
    exact ih (hit.after grown₁ hs₁) ⟨c, vs ++ [v], rest, hc.grows grown₁,
      List.rel_append hvs₁ (.cons hv .nil), hrest, rfl⟩
  | argumentError _ iht =>
    obtain ⟨c, vs, ids, hc, hvs, ⟨i, rest, rfl, hi, hrest⟩, rfl⟩ := hm
    simp only [Interpreter.callRest_cons]
    exact (iht hit ⟨i, hi, rfl⟩).bind_error
  | arity differ =>
    obtain ⟨c, vs, ids, hc, hvs, rfl, rfl⟩ := hm
    have harity : c.arity = _ := hc.params.length_eq
    simp only [Interpreter.callRest_nil]
    refine .error (fun n => ?_) hit.state (.refl _)
    rw [← harity, ← hvs.length_eq] at differ ⊢
    exact Interpreter.apply_arity differ s
  | overflow fits bound deep =>
    obtain ⟨c, vs, ids, hc, hvs, rfl, rfl⟩ := hm
    have harity : c.arity = _ := hc.params.length_eq
    simp only [Interpreter.callRest_nil]
    refine .error (fun n => ?_) hit.state (.refl _)
    rw [← harity, ← hvs.length_eq] at fits
    exact Interpreter.apply_overflow fits (hit.limit.trans bound) (hit.depth ▸ deep) s
  | parameter fits room declared =>
    obtain ⟨c, vs, ids, hc, hvs, rfl, rfl⟩ := hm
    rw [← hit.limit, ← hit.depth] at room
    simp only [Interpreter.callRest_nil]
    obtain ⟨s', hs', grown, _, hrun⟩ :=
      Interpreter.apply_represents hit.names hit.state hc hvs fits room
    rw [declared] at hs'
    simp only [declared] at hrun
    exact .error (fun n => hrun _) hs' grown
  | body fits room declared _ ih =>
    obtain ⟨c, vs, ids, hc, hvs, rfl, rfl⟩ := hm
    rw [← hit.limit, ← hit.depth] at room
    simp only [Interpreter.callRest_nil]
    obtain ⟨s', hs', grown, around, hrun⟩ :=
      Interpreter.apply_represents hit.names hit.state hc hvs fits room
    rw [declared] at hs'
    simp only [declared] at hrun
    have hbody := ih (hit.enter around hs') ⟨c.body, hc.body, rfl⟩
    exact hbody.step (fun n => hrun _) grown

end Treewalk
