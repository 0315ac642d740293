import Treewalk.Proofs.Effects
import Treewalk.Proofs.Sessions

/-! Evaluation comes to an end where nothing loops and calls can nest only so far. A call may lead
to any body in any arena, also to the one it stands in, but it uses up one of the calls that are
left; and between calls evaluation goes from nodes to their parts, which have smaller numbers. -/

namespace Treewalk

namespace Arena

/-- No node is a loop. -/
def Loopless (a : Arena) : Prop := ∀ id test body, a.node? id ≠ some (.loop test body)

/-- Parts have smaller numbers than their nodes, stretches lie inside their tables, and no node is a
loop. -/
structure Tame (a : Arena) : Prop extends a.Founded where
  loopless : a.Loopless

end Arena

/-- The closure has its body in a tame arena. -/
structure Closure.Tame (c : Closure) : Prop where
  arena : c.code.arena.Tame
  body : c.code.arena.Covers c.body

/-- In tame arenas evaluation makes only tame closures. -/
def tameness : Invariant Unit :=
  .ofClosures Closure.Tame (fun code id => code.arena.Tame ∧ code.arena.Covers id)
    (fun h hold hj => ⟨h.1, h.1.covers hold.stored hj⟩)
    (fun h hold _ _ _ => ⟨h.1, h.1.covers hold.stored (List.mem_singleton_self _)⟩)
    fun _ h => ⟨h.arena, h.body⟩

/-! ### Answers -/

/-- The computation gave a value or an error of the program. -/
def Outcome.Answered {α : Type} : Outcome α → Prop
  | .ok _ _ => True
  | .error (.error _) _ => True
  | .error _ _ => False

/-- The computation with fuel ends in a value or in an error of the program. -/
def EvalM.Answers {α : Type} (m : Nat → EvalM α) (s : State) : Prop :=
  ∃ r, Ends m s r ∧ r.Answered

namespace EvalM.Answers

variable {α β : Type} {m : Nat → EvalM α} {s : State}

theorem of_eq {r : Outcome α} (h : ∀ n, m n s = r) (hr : r.Answered) : Answers m s := by
  refine ⟨r, .of_eq ?_ h, hr⟩
  cases r with
  | ok a t => trivial
  | error cause t => cases cause <;> trivial

theorem bind {f : Nat → α → EvalM β} (h : Answers m s)
    (hf : ∀ a t, Ends m s (.ok a t) → Answers (fun n => f n a) t) :
    Answers (fun n => m n >>= f n) s := by
  obtain ⟨r, hends, hr⟩ := h
  cases r with
  | ok a t =>
    obtain ⟨r', hends', hr'⟩ := hf a t hends
    exact ⟨r', hends.bind hends', hr'⟩
  | error cause t =>
    cases cause with
    | error e => exact ⟨_, hends.bind_error, trivial⟩
    | _ => exact hr.elim

/-- A first step without effect on the fuel leaves the rest. -/
theorem step {m' : Nat → EvalM α} {s' : State} (h : Answers m' s') (hm : ∀ n, m n s = m' n s') :
    Answers m s := by
  obtain ⟨r, hends, hr⟩ := h
  obtain ⟨n, hn⟩ := hends.settles
  exact ⟨r, ⟨hends.finished, n, fun j hj => (hm j).trans (hn j hj)⟩, hr⟩

end EvalM.Answers

/-- What a computation keeps with every fuel it keeps when it ends. -/
theorem Invariant.holds_of_ends {W α : Type} {I : Invariant W} {w : W} {m : Nat → EvalM α}
    {Q : W → α → Prop} {s t : State} {a : α} (keeps : ∀ n, I.Keeps w s.store (m n) Q)
    (h : EvalM.Ends m s (.ok a t)) : ∃ w', I.Holds w' t.store ∧ Q w' a := by
  obtain ⟨n, hn⟩ := h.settles
  obtain ⟨w', _, hholds, hQ⟩ := keeps n s.sink
  have hrun : m n ⟨s.store, s.sink⟩ = .ok a t := hn n (Nat.le_refl n)
  rw [hrun] at hholds
  exact ⟨w', hholds, hQ a t hrun⟩

namespace Interpreter

/-- The expression lies in a tame arena, and where all closures are tame its evaluation gives an
answer. -/
structure Settles (it : Interpreter) (id : NodeId) : Prop where
  arena : it.code.arena.Tame
  covers : it.code.arena.Covers id
  answers : ∀ s : State, s.store.Meets Closure.Tame → EvalM.Answers (fun n => it.evalWith n id) s

variable {it : Interpreter} {id : NodeId} {s : State}

theorem Settles.bind {β : Type} {f : Nat → Value → EvalM β} (h : it.Settles id)
    (hs : s.store.Meets Closure.Tame)
    (hf : ∀ v t, v.Meets Closure.Tame → t.store.Meets Closure.Tame →
      EvalM.Answers (fun n => f n v) t) :
    EvalM.Answers (fun n => it.evalWith n id >>= f n) s := by
  refine (h.answers s hs).bind fun v t hends => ?_
  obtain ⟨_, htame, hv⟩ := Invariant.holds_of_ends
    (fun n => tameness.evaluates_evalWith n (w := ()) hs ⟨h.arena, h.covers⟩) hends
  exact hf v t hv htame

/-- Arguments that settle one by one settle together. -/
theorem answers_mapM {ids : List NodeId} (h : ∀ i ∈ ids, it.Settles i)
    (hs : s.store.Meets Closure.Tame) :
    EvalM.Answers (fun n => ids.mapM (it.evalWith n)) s := by
  induction ids generalizing s with
  | nil => exact .of_eq (fun _ => rfl) trivial
  | cons i ids ih =>
    simp only [List.mapM_cons]
    rw [List.forall_mem_cons] at h
    refine h.1.bind hs fun v t _ ht => ?_
    refine (ih h.2 ht).bind fun vs u _ => ?_
    exact .of_eq (fun _ => rfl) trivial

theorem answers_declareIn (it : Interpreter) (e : ScopeId) (x : Name) (v : Value) (s : State) :
    EvalM.Answers (fun _ => it.declareIn e x v) s := by
  refine .of_eq (fun _ => declareIn_run it e x v s) ?_
  split <;> trivial

theorem answers_declareParams (it : Interpreter) (e : ScopeId) (xs : List Name) (vs : List Value)
    (s : State) : EvalM.Answers (fun _ => it.declareParams e xs vs) s := by
  induction xs generalizing vs s with
  | nil => exact .of_eq (fun _ => rfl) trivial
  | cons x xs ih =>
    cases vs with
    | nil => exact .of_eq (fun _ => rfl) trivial
    | cons v vs => exact (answers_declareIn it e x v s).bind fun _ t _ => ih vs t

/-- A call gives an answer if the body does wherever there is room for the call. -/
theorem answers_apply (it : Interpreter) {c : Closure} {args : List Value} {k : Nat}
    (hlimit : it.limit = some k) (hargs : ∀ v ∈ args, v.Meets Closure.Tame)
    (hs : s.store.Meets Closure.Tame)
    (hbody : it.depth < k → ∀ scope, (it.enter c scope).Settles c.body) :
    EvalM.Answers (fun n => it.apply (evalWith n) c args) s := by
  by_cases arity : args.length = c.arity
  · by_cases room : it.depth < k
    · have hroom : ∀ l, it.limit = some l → it.depth < l := by
        intro l hl
        obtain rfl := Option.some.inj (hlimit.symm.trans hl)
        exact room
      refine .step ?_ fun n => apply_room arity hroom s
      refine (answers_declareParams it _ c.params args _).bind fun _ t hends => ?_
      obtain ⟨_, ht, _⟩ := Invariant.holds_of_ends (I := tameness) (w := ())
        (fun _ => .declareParams (hs.child c.env) it hargs
          fun _ _ x _ _ htame _ hv => htame.bind hv _ x) hends
      exact (hbody room _).answers t ht
    · exact .of_eq (fun _ => apply_overflow arity hlimit (Nat.le_of_not_lt room) s) trivial
  · exact .of_eq (fun _ => apply_arity arity s) trivial

/-- A node other than a loop gives an answer if its parts do and if calls do. -/
theorem answers_evalNode {node : Node} (hold : it.code.arena.Holds id node)
    (tame : it.code.arena.Tame) (hs : s.store.Meets Closure.Tame)
    (hparts : ∀ e, ∀ j ∈ it.code.arena.children node, Settles { it with env := e } j)
    (hcall : ∀ c args t, c.Tame → (∀ v ∈ args, v.Meets Closure.Tame) →
      t.store.Meets Closure.Tame → EvalM.Answers (fun n => it.apply (evalWith n) c args) t) :
    EvalM.Answers (fun n => it.evalNode (evalWith n) n node) s := by
  have hpart : ∀ j ∈ it.code.arena.parts node, it.Settles j :=
    fun j hj => hparts it.env j (List.mem_append_left _ hj)
  have hreads := tame.reads id node hold.stored
  cases node with
  | int i | bool i => exact .of_eq (fun _ => rfl) trivial
  | null => exact .of_eq (fun _ => rfl) trivial
  | ident x => exact .of_eq (fun _ => rfl) trivial
  | print e => exact (hpart e (by simp)).bind hs fun v t _ _ => .of_eq (fun _ => rfl) trivial
  | binary op l r =>
    refine (hpart l (by simp)).bind hs fun v t _ ht => ?_
    refine (hpart r (by simp)).bind ht fun v' u _ _ => ?_
    refine .of_eq (fun _ => rfl) ?_
    cases op.apply v v' <;> trivial
  | cond c t e =>
    refine (hpart c (by simp)).bind hs fun v u _ hu => ?_
    split
    · exact (hpart t (by simp)).answers u hu
    · exact (hpart e (by simp)).answers u hu
    · exact .of_eq (fun _ => rfl) trivial
  | loop c b => exact absurd hold.stored (tame.loopless id c b)
  | seq x y =>
    refine (hpart x (by simp)).bind hs fun _ t _ ht => ?_
    exact (hpart y (by simp)).answers t ht
  | block e =>
    have hbody := hparts s.store.scopes.size e (by simp [Arena.children])
    exact (hbody.answers { s with store := (s.store.child it.env).2 } (hs.child it.env)).step
      fun _ => rfl
  | declare x e =>
    refine (hpart e (by simp)).bind hs fun v t _ _ => ?_
    refine (answers_declareIn it it.env x v t).bind fun _ u _ => ?_
    exact .of_eq (fun _ => rfl) trivial
  | assign x e => exact (hpart e (by simp)).bind hs fun v t _ _ => .of_eq (fun _ => rfl) trivial
  | function span body =>
    obtain ⟨params, hparams⟩ := Option.isSome_iff_exists.mp hreads
    simp only [evalNode, hparams]
    exact .of_eq (fun _ => rfl) trivial
  | call f span =>
    obtain ⟨ids, hids⟩ := Option.isSome_iff_exists.mp hreads
    have hargs : ∀ i ∈ ids, it.Settles i := fun i hi => hpart i (by simp [hids, hi])
    refine (hpart f (by simp)).bind hs fun v t hv ht => ?_
    cases v with
    | closure c =>
      simp only [hids, EvalM.ofLookup, pure_bind]
      refine (answers_mapM hargs ht).bind fun vs u hends => ?_
      have hruns : ∀ i ∈ ids, tameness.Runs () it i := fun i hi => ⟨tame, (hargs i hi).covers⟩
      obtain ⟨_, hu, hvs⟩ := Invariant.holds_of_ends
        (fun n => Invariant.Evaluates.mapM (tameness.evaluates_evalWith n) ht hruns) hends
      exact hcall c vs u (hv c rfl) hvs hu
    | _ => exact .of_eq (fun _ => rfl) trivial

theorem settles_absent (tame : it.code.arena.Tame) : it.Settles .absent := by
  refine ⟨tame, .inl rfl, fun s _ => ?_⟩
  have hnull : EvalM.Ends (fun _ => pure Value.null) s (.ok .null s) := .of_eq trivial fun _ => rfl
  exact ⟨_, hnull.of_succ fun n => rfl, trivial⟩

/-- Where calls give answers every expression settles, by induction on the numbers of nodes. -/
theorem settles_of_calls (tame : it.code.arena.Tame)
    (hcall : ∀ e c args t, c.Tame → (∀ v ∈ args, v.Meets Closure.Tame) →
      t.store.Meets Closure.Tame →
      EvalM.Answers (fun n => apply (evalWith n) { it with env := e } c args) t)
    (hid : it.code.arena.Covers id) (e : ScopeId) : Settles { it with env := e } id := by
  induction hi : id.index using Nat.strongRecOn generalizing id e with
  | _ i ih =>
    -- the absent number is the greatest one, so the induction does not lead to it
    by_cases absent : id = .absent
    · subst absent
      exact settles_absent tame
    obtain ⟨node, hnode⟩ := Arena.exists_node? (hid.resolve_left absent)
    have hold : it.code.arena.Holds id node := ⟨NodeId.isPresent_iff.mpr absent, hnode⟩
    refine ⟨tame, hid, fun s hs => ?_⟩
    have hparts : ∀ e', ∀ j ∈ it.code.arena.children node, Settles { it with env := e' } j := by
      intro e' j hj
      rcases tame.children id node hnode j hj with rfl | hless
      · exact settles_absent tame
      · exact ih j.index (hi ▸ hless) (tame.covers hnode hj) e' rfl
    have hhere : Arena.Holds ({ it with env := e } : Interpreter).code.arena id node := hold
    obtain ⟨r, hends, hr⟩ := answers_evalNode hhere tame hs hparts (hcall e)
    exact ⟨r, hends.of_succ fun n => congrFun (evalWith_holds hhere) s, hr⟩

/-- Where calls can nest only so far, every expression of a tame arena settles, by induction on the
calls that are left. -/
theorem settles_of_limit {k room : Nat} (hlimit : it.limit = some k) (hroom : k ≤ it.depth + room)
    (tame : it.code.arena.Tame) (hid : it.code.arena.Covers id) : it.Settles id := by
  induction room generalizing it id with
  | zero =>
    refine settles_of_calls tame (fun e c args t hc hargs ht => ?_) hid it.env
    refine answers_apply { it with env := e } hlimit hargs ht fun hlt => ?_
    exact absurd hlt (Nat.not_lt_of_le hroom)
  | succ room ih =>
    refine settles_of_calls tame (fun e c args t hc hargs ht => ?_) hid it.env
    refine answers_apply { it with env := e } hlimit hargs ht fun _ scope => ?_
    apply ih
    case hlimit => exact hlimit
    case hroom =>
      show k ≤ it.depth + 1 + room
      omega
    case tame => exact hc.arena
    case hid => exact hc.body

end Interpreter

/-- The arena is the work of a builder, and no node of it is a loop. -/
def Arena.BuiltLoopless (a : Arena) : Prop := a.Produced ∧ a.Loopless

theorem Arena.BuiltLoopless.tame {a : Arena} (h : a.BuiltLoopless) : a.Tame :=
  ⟨h.1.founded, h.2⟩

/-- A proper closure over a built arena without loops is tame. -/
theorem Closure.Proper.tame {c : Closure} (h : c.Proper) (built : c.code.arena.BuiltLoopless) :
    c.Tame := by
  refine ⟨built.tame, ?_⟩
  rcases h with hcovers | ⟨id, span, hnode⟩
  · exact hcovers
  · exact built.tame.covers hnode (List.mem_singleton_self _)

/-- Without loops a limit on calls forces every evaluation to end. In every session where the arenas
of the interpreter and of all closures are the work of builders and hold no loops, every expression
of the interpreter's arena ends in a value or an error, and so does every call of a value with
values that are held or bound, whatever the closures refer to. -/
theorem limited_calls_end {s : Store} {held : List Value} (session : Session s held)
    {it : Interpreter} {limit : Nat} (hlimit : it.limit = some limit)
    (hcode : it.code.arena.BuiltLoopless) (hbound : s.Meets (·.code.arena.BuiltLoopless))
    (hheld : ∀ v ∈ held, v.Meets (·.code.arena.BuiltLoopless)) (k : Sink) :
    (∀ id, it.code.arena.Covers id → ∃ r, it.Ends id ⟨s, k⟩ r ∧ r.Answered) ∧
    ∀ f args, (∀ v ∈ f :: args, v ∈ held ∨ ∃ e x, s.local? e x = some v) →
      ∃ r, it.CallEnds f args ⟨s, k⟩ r ∧ r.Answered := by
  obtain ⟨proper, properHeld⟩ := session.closures_proper
  have hs : s.Meets Closure.Tame :=
    fun e x v hv c hc => (proper e x v hv c hc).tame (hbound e x v hv c hc)
  constructor
  · intro id hid
    have hsettles := Interpreter.settles_of_limit hlimit (Nat.le_add_left _ _) hcode.tame hid
    exact hsettles.answers ⟨s, k⟩ hs
  · intro f args hvs
    have htame : ∀ v ∈ f :: args, v.Meets Closure.Tame := by
      intro v hv c hc
      rcases hvs v hv with hmem | ⟨e, x, hlocal⟩
      · exact (properHeld v hmem c hc).tame (hheld v hmem c hc)
      · exact hs e x v hlocal c hc
    rw [List.forall_mem_cons] at htame
    cases f with
    | closure c =>
      have hc := htame.1 c rfl
      refine it.answers_apply hlimit htame.2 hs fun _ scope => ?_
      exact Interpreter.settles_of_limit hlimit (Nat.le_add_left _ _) hc.arena hc.body
    | _ => exact EvalM.Answers.of_eq (fun _ => rfl) trivial

/-- A closure that calls itself through the outermost scope, which binds it, under a limit. -/
theorem limited_calls_end_recursive :
    let code : Code := ⟨0, { nodes := #[.ident .empty, .call ⟨0⟩ .empty] }⟩
    let made := ({} : Store).global.2.newClosure [] ⟨1⟩ 0 code
    let s := (made.2.declare 0 .empty (.closure made.1)).2
    let it : Interpreter := { names := .initial, code := code, env := 0, limit := some 2 }
    code.arena.BuiltLoopless ∧ s.resolve 0 .empty = some (.closure made.1) ∧
      (∃ r, it.Ends ⟨1⟩ ⟨s, .buffer #[]⟩ r ∧ r.Answered) ∧
      ∃ r, it.CallEnds (.closure made.1) [] ⟨s, .buffer #[]⟩ r ∧ r.Answered := by
  intro code made s it
  have known : Interner.initial.find? "" = some .empty :=
    (Interner.wellFormed_initial "" .empty).mpr rfl
  have hintern : Builder.intern "" {} = .ok .empty {} := by
    simp only [Builder.intern, Builder.onNames, Interner.intern_of_find?_eq_some known]
  have hname : (Construct.ident "").perform {} =
      .ok (some ⟨0⟩) { arena := { nodes := #[.ident .empty] } } := by
    simp only [Construct.perform, Builder.ident, map_bind]
    simp only [Bind.bind, EStateM.bind, hintern]
    rfl
  have grown : Builder.Grown { arena := code.arena } [⟨1⟩, ⟨0⟩] :=
    .construct (.construct (.start .initial) (.ident "") (by simp [Construct.ids]) hname)
      (.call ⟨0⟩ []) (by simp [Construct.ids]) rfl
  have built : code.arena.BuiltLoopless := by
    refine ⟨⟨_, _, grown, rfl⟩, fun id test body h => ?_⟩
    have hmem := Array.mem_of_getElem? h
    simp [code] at hmem
  have hf : Value.Meets (·.code.arena.BuiltLoopless) (.closure made.1) := by
    rintro c ⟨⟩
    exact built
  have hbody : code.arena.Covers ⟨1⟩ := .inr (show 1 < 2 by decide)
  have session : Session s [.closure made.1] :=
    .declare (.closure (.global .start) [] 0 hbody) List.mem_cons_self 0 .empty
  have hbound : s.Meets (·.code.arena.BuiltLoopless) :=
    Store.Meets.declare (Store.Meets.global .empty) hf 0 .empty
  have hlimit : it.limit = some 2 := rfl
  obtain ⟨hev, hcall⟩ := limited_calls_end session hlimit built hbound
    (List.forall_mem_singleton.mpr hf) (.buffer #[])
  refine ⟨built, ?_, hev ⟨1⟩ hbody, hcall _ _ fun v hv => .inl hv⟩
  rw [Store.resolve]
  rfl

end Treewalk
