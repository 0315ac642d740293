import Treewalk.Proofs.Ending

/-! The limit on nested calls. A computation under a limit is compared with the same computation
without one: from some threshold on the limit makes no difference at all, and below it the
computation fails because of the limit, after it has printed the first of its lines. -/

namespace Treewalk

/-- The sink `k'` holds what was written to `k` and to it further lines. -/
def Sink.Continues (k k' : Sink) : Prop := ∃ lines : List String, k' = lines.foldl writeLine k

namespace Sink.Continues

theorem refl (k : Sink) : k.Continues k := ⟨[], rfl⟩

theorem trans {k₁ k₂ k₃ : Sink} (h : k₁.Continues k₂) (h' : k₂.Continues k₃) :
    k₁.Continues k₃ := by
  obtain ⟨lines, rfl⟩ := h
  obtain ⟨lines', rfl⟩ := h'
  exact ⟨lines ++ lines', by simp⟩

end Sink.Continues

/-- The same interpreter with another limit. -/
def Interpreter.withLimit (it : Interpreter) (limit : Option Nat) : Interpreter :=
  { it with limit := limit }

/-- From the state `s`, the computation `m` with a limit `k` of at least `d` does what it does
without a limit. With a smaller one it fails because of the limit, and what it has printed by then
is printed without a limit as well. -/
structure EvalM.Threshold {α : Type} (m : Option Nat → EvalM α) (s : State) (d : Nat) : Prop where
  printed : s.sink.Continues (Outcome.state (m none s)).sink
  above : ∀ k, d ≤ k → m (some k) s = m none s
  below : ∀ k, k < d → ∃ t, m (some k) s = .error (.error (.stackOverflow k)) t ∧
    s.sink.Continues t.sink ∧ t.sink.Continues (Outcome.state (m none s)).sink

/-- The computation has a threshold from every state. -/
def EvalM.Bounded {α : Type} (m : Option Nat → EvalM α) : Prop := ∀ s, ∃ d, Threshold m s d

namespace EvalM

variable {α β : Type} {m : EvalM α} {f : α → EvalM β} {s t : State}

theorem bind_of_ok {a : α} (h : m s = .ok a t) : (m >>= f) s = f a t := by
  simp only [Bind.bind, EStateM.bind, h]

theorem bind_of_error {cause : Halt} (h : m s = .error cause t) :
    (m >>= f) s = .error cause t := by
  simp only [Bind.bind, EStateM.bind, h]

/-- Two computations give a result one after the other if each does. -/
theorem bind_eq_ok {b : β} : (m >>= f) s = .ok b t ↔ ∃ a u, m s = .ok a u ∧ f a u = .ok b t := by
  simp only [Bind.bind, EStateM.bind]
  constructor
  · intro h
    cases hm : m s with
    | ok a u =>
      rw [hm] at h
      exact ⟨a, u, rfl, h⟩
    | error cause u =>
      rw [hm] at h
      cases h
  · rintro ⟨a, u, hm, hf⟩
    rw [hm]
    exact hf

end EvalM

namespace EvalM.Bounded

variable {α β : Type} {m : Option Nat → EvalM α}

/-- A computation that does not look at the limit. -/
theorem const {m : EvalM α} (h : ∀ s : State, s.sink.Continues (Outcome.state (m s)).sink) :
    Bounded fun _ => m :=
  fun s => ⟨0, h s, fun _ _ => rfl, fun k hk => absurd hk (Nat.not_lt_zero k)⟩

/-- A computation that changes at most the store. -/
theorem silent {m : EvalM α} (h : ∀ s : State, (Outcome.state (m s)).sink = s.sink) :
    Bounded fun _ => m :=
  const fun s => by rw [h s]; exact .refl _

theorem bind {f : Option Nat → α → EvalM β} (h : Bounded m) (hf : ∀ a, Bounded fun l => f l a) :
    Bounded fun l => m l >>= f l := by
  intro s
  obtain ⟨d, hm⟩ := h s
  have hprinted := hm.printed
  have hbelow := hm.below
  cases hnone : m none s with
  | error cause t =>
    -- the rest is not reached, with or without a limit
    have hrun : (m none >>= f none) s = .error cause t := bind_of_error hnone
    rw [hnone] at hprinted hbelow
    refine ⟨d, ?_, fun k hk => ?_, fun k hk => ?_⟩
    · rw [hrun]
      exact hprinted
    · rw [hrun]
      exact bind_of_error ((hm.above k hk).trans hnone)
    · rw [hrun]
      obtain ⟨u, hu, hmore⟩ := hbelow k hk
      exact ⟨u, bind_of_error hu, hmore⟩
  | ok a t =>
    obtain ⟨d', hf'⟩ := hf a t
    have hrun : (m none >>= f none) s = f none a t := bind_of_ok hnone
    have hsame : ∀ k, d ≤ k → (m (some k) >>= f (some k)) s = f (some k) a t :=
      fun k hk => bind_of_ok ((hm.above k hk).trans hnone)
    rw [hnone] at hprinted hbelow
    refine ⟨max d d', ?_, fun k hk => ?_, fun k hk => ?_⟩
    · rw [hrun]
      exact hprinted.trans hf'.printed
    · rw [hrun, hsame k (by omega)]
      exact hf'.above k (by omega)
    · rw [hrun]
      by_cases hd : k < d
      · obtain ⟨u, hu, hfirst, hmore⟩ := hbelow k hd
        exact ⟨u, bind_of_error hu, hfirst, hmore.trans hf'.printed⟩
      · obtain ⟨u, hu, hfirst, hmore⟩ := hf'.below k (by omega)
        exact ⟨u, (hsame k (by omega)).trans hu, hprinted.trans hfirst, hmore⟩

theorem pure (a : α) : Bounded fun _ => (Pure.pure a : EvalM α) := silent fun _ => rfl

theorem throw (cause : Halt) : Bounded fun _ => (throw cause : EvalM α) := silent fun _ => rfl

theorem onStore (f : Store → α × Store) : Bounded fun _ => EvalM.onStore f := silent fun _ => rfl

theorem ofLookup (o : Option α) : Bounded fun _ => EvalM.ofLookup o := by
  cases o with
  | some a => exact pure a
  | none => exact throw _

theorem ofExcept (x : Except EvalError α) : Bounded fun _ => EvalM.ofExcept x := by
  cases x with
  | ok a => exact pure a
  | error cause => exact throw _

theorem writeLine (line : String) : Bounded fun _ => EvalM.writeLine line :=
  const fun _ => ⟨[line], rfl⟩

theorem mapM {γ : Type} {f : Option Nat → γ → EvalM α} (h : ∀ x, Bounded fun l => f l x)
    (xs : List γ) : Bounded fun l => xs.mapM (f l) := by
  induction xs with
  | nil => exact pure []
  | cons x xs ih =>
    simp only [List.mapM_cons]
    exact (h x).bind fun v => ih.bind fun vs => pure (v :: vs)

end EvalM.Bounded

namespace Interpreter

open EvalM (Bounded)

theorem bounded_lookup (it : Interpreter) (x : Name) :
    Bounded fun l => (it.withLimit l).lookup x :=
  Bounded.silent (m := it.lookup x) fun _ => rfl

theorem bounded_declareIn (it : Interpreter) (e : ScopeId) (x : Name) (v : Value) :
    Bounded fun l => (it.withLimit l).declareIn e x v := by
  refine Bounded.bind (.onStore _) fun outcome => ?_
  cases outcome with
  | declared => exact .pure ()
  | duplicate => exact .throw (.error (.duplicateDeclaration (it.names.lookup x)))

theorem bounded_declareParams (it : Interpreter) (e : ScopeId) (xs : List Name) (vs : List Value) :
    Bounded fun l => (it.withLimit l).declareParams e xs vs := by
  induction xs generalizing vs with
  | nil => exact .pure ()
  | cons x xs ih =>
    cases vs with
    | nil => exact .pure ()
    | cons v vs => exact (it.bounded_declareIn e x v).bind fun _ => ih vs

/-- The check fails exactly if no more calls are allowed than there are around it. -/
theorem bounded_checkLimit (it : Interpreter) : Bounded fun l => (it.withLimit l).checkLimit := by
  refine fun s => ⟨it.depth + 1, .refl _, fun k hk => ?_, fun k hk => ⟨s, ?_, .refl _, .refl _⟩⟩
  · have hroom : ¬ k ≤ it.depth := by omega
    simp [checkLimit, withLimit, hroom]
  · have hfull : k ≤ it.depth := by omega
    simp [checkLimit, withLimit, hfull]
    rfl

section Parts

variable {ev : Interpreter → NodeId → EvalM Value}

theorem bounded_apply (h : ∀ (it : Interpreter) id, Bounded fun l => ev (it.withLimit l) id)
    (it : Interpreter) (c : Closure) (args : List Value) :
    Bounded fun l => (it.withLimit l).apply ev c args := by
  unfold apply
  by_cases hlength : args.length = c.arity
  · simp only [hlength, if_true]
    refine it.bounded_checkLimit.bind fun _ => Bounded.bind (.onStore _) fun scope => ?_
    exact (it.bounded_declareParams scope c.params args).bind fun _ => h (it.enter c scope) c.body
  · simp only [hlength, if_false]
    exact .throw _

theorem bounded_iterate {test body : Option Nat → EvalM Value} (htest : Bounded test)
    (hbody : Bounded body) (n : Nat) : Bounded fun l => iterate (test l) (body l) n := by
  induction n with
  | zero => exact .throw _
  | succ n ih =>
    refine htest.bind fun v => ?_
    cases v with
    | bool b =>
      cases b with
      | true => exact hbody.bind fun _ => ih
      | false => exact .pure _
    | _ => exact .throw _

theorem bounded_evalNode (h : ∀ (it : Interpreter) id, Bounded fun l => ev (it.withLimit l) id)
    (n : Nat) (it : Interpreter) (node : Node) :
    Bounded fun l => (it.withLimit l).evalNode ev n node := by
  cases node with
  | int i => exact .pure _
  | bool b => exact .pure _
  | null => exact .pure _
  | ident x => exact it.bounded_lookup x
  | print e => exact (h it e).bind fun v => Bounded.bind (.writeLine _) fun _ => .pure v
  | binary op l r => exact (h it l).bind fun _ => (h it r).bind fun _ => .ofExcept _
  | cond c t e =>
    refine (h it c).bind fun v => ?_
    cases v with
    | bool b =>
      cases b with
      | true => exact h it t
      | false => exact h it e
    | _ => exact .throw _
  | loop c b => exact bounded_iterate (h it c) (h it b) n
  | seq a b => exact (h it a).bind fun _ => h it b
  | block e =>
    exact Bounded.bind (.onStore (·.child it.env)) fun scope => h { it with env := scope } e
  | declare x e =>
    exact (h it e).bind fun v => (it.bounded_declareIn it.env x v).bind fun _ => it.bounded_lookup x
  | assign x e =>
    refine (h it e).bind fun v => ?_
    exact Bounded.bind (.onStore (·.update it.env x v)) fun _ => it.bounded_lookup x
  | function span body =>
    refine Bounded.bind (.ofLookup (it.code.arena.parameters? span)) fun params => ?_
    exact Bounded.bind (.onStore (·.newClosure params body it.env it.code)) fun _ => .pure _
  | call f span =>
    refine (h it f).bind fun v => ?_
    cases v with
    | closure c =>
      refine Bounded.bind (.ofLookup (it.code.arena.arguments? span)) fun ids => ?_
      exact (Bounded.mapM (h it) ids).bind fun args => bounded_apply h it c args
    | _ => exact .throw _

end Parts

/-- With any fuel, evaluation has a threshold for its limit. -/
theorem bounded_evalWith (n : Nat) (it : Interpreter) (id : NodeId) :
    Bounded fun l => (it.withLimit l).evalWith n id := by
  induction n generalizing it id with
  | zero => exact .throw _
  | succ n ih =>
    simp only [evalWith_succ, evalStep]
    split
    · refine Bounded.bind (.ofLookup (it.code.arena.node? id)) fun node => ?_
      exact bounded_evalNode ih n it node
    · exact .pure _

end Interpreter

/-- The limit on nested calls is exact and otherwise invisible. If an expression ends without a
limit, there is a threshold: with a limit of at least that much it ends in the same outcome, and
with a smaller one it fails because of the limit, having printed the first of the same lines. If it
ends under a limit, but not because of it, it ends in the same outcome under every larger limit and
under none. -/
theorem call_limit_exact (it : Interpreter) (id : NodeId) (s : State) :
    (∀ r, (it.withLimit none).Ends id s r →
      ∃ d, ∀ k, (d ≤ k → (it.withLimit (some k)).Ends id s r) ∧
        (k < d → ∃ t, ∃ printed more : List String,
          (it.withLimit (some k)).Ends id s (.error (.error (.stackOverflow k)) t) ∧
          t.sink = printed.foldl Sink.writeLine s.sink ∧
          r.state.sink = (printed ++ more).foldl Sink.writeLine s.sink)) ∧
    ∀ k r, (it.withLimit (some k)).Ends id s r →
      (∀ j t, r ≠ .error (.error (.stackOverflow j)) t) →
      (∀ j, k ≤ j → (it.withLimit (some j)).Ends id s r) ∧ (it.withLimit none).Ends id s r := by
  constructor
  · intro r hr
    obtain ⟨n, hn⟩ := hr.settles
    obtain ⟨d, hd⟩ := it.bounded_evalWith n id s
    have hnone : (it.withLimit none).evalWith n id s = r := hn n (Nat.le_refl n)
    refine ⟨d, fun k => ⟨fun hk => ?_, fun hk => ?_⟩⟩
    · exact Interpreter.ends_of_evalWith ((hd.above k hk).trans hnone) hr.finished
    · obtain ⟨t, ht, ⟨printed, hprinted⟩, ⟨more, hmore⟩⟩ := hd.below k hk
      refine ⟨t, printed, more, Interpreter.ends_of_evalWith ht trivial, hprinted, ?_⟩
      rw [← hnone, hmore, hprinted, List.foldl_append]
  · intro k r hr hother
    obtain ⟨n, hn⟩ := hr.settles
    obtain ⟨d, hd⟩ := it.bounded_evalWith n id s
    have hsome : (it.withLimit (some k)).evalWith n id s = r := hn n (Nat.le_refl n)
    have hk : d ≤ k := by
      refine Nat.le_of_not_lt fun hlt => ?_
      obtain ⟨t, ht, _⟩ := hd.below k hlt
      exact hother k t (hsome.symm.trans ht)
    have hnone : (it.withLimit none).evalWith n id s = r := (hd.above k hk).symm.trans hsome
    refine ⟨fun j hj => ?_, Interpreter.ends_of_evalWith hnone hr.finished⟩
    exact Interpreter.ends_of_evalWith ((hd.above j (by omega)).trans hnone) hr.finished

/-- Of two functions the outer one calls the inner one, so the threshold is two. -/
theorem call_limit_exact_two :
    let it : Interpreter :=
      { names := .initial, env := 0,
        code := ⟨0, ⟨#[.int 7, .function .empty ⟨0⟩, .call ⟨1⟩ .empty, .function .empty ⟨2⟩,
          .call ⟨3⟩ .empty], #[], #[]⟩⟩ }
    let s : State := { store := ({} : Store).global.2 }
    ∃ t, (it.withLimit none).Ends ⟨4⟩ s (.ok (.int 7) t) ∧
      ∀ k, (2 ≤ k → (it.withLimit (some k)).Ends ⟨4⟩ s (.ok (.int 7) t)) ∧
        (k < 2 → ∃ t', (it.withLimit (some k)).Ends ⟨4⟩ s
          (.error (.error (.stackOverflow k)) t')) := by
  intro it s
  have hone : ∃ t, (it.withLimit (some 1)).evalWith 5 ⟨4⟩ s =
      .error (.error (.stackOverflow 1)) t := ⟨_, rfl⟩
  obtain ⟨t, htwo⟩ : ∃ t, (it.withLimit (some 2)).evalWith 5 ⟨4⟩ s = .ok (.int 7) t := ⟨_, rfl⟩
  obtain ⟨hthreshold, hother⟩ := call_limit_exact it ⟨4⟩ s
  have hends := Interpreter.ends_of_evalWith htwo trivial
  obtain ⟨hlarger, hnone⟩ := hother 2 _ hends (by simp)
  refine ⟨t, hnone, fun k => ⟨hlarger k, fun hk => ?_⟩⟩
  obtain ⟨d, hd⟩ := hthreshold _ hnone
  have hlt : 1 < d := by
    refine Nat.lt_of_not_le fun hle => ?_
    obtain ⟨u, hu⟩ := hone
    have hfails := Interpreter.ends_of_evalWith hu trivial
    cases hfails.unique ((hd 1).1 hle)
  obtain ⟨t', _, _, hfails, _⟩ := (hd k).2 (by omega)
  exact ⟨t', hfails⟩

end Treewalk
