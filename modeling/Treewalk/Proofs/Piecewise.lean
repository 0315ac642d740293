import Treewalk.Proofs.ParallelConstruction
import Treewalk.Proofs.SideBySide

/-! Programs run piece by piece. A list of statements can be cut in two: the pieces, built into
arenas of their own and run one after the other in one outermost scope, do what the whole does. On
trees this is how lists of statements run; and what the first piece leaves behind is a state that
represents a memory, from which an interpreter over another arena can follow the rules. -/

namespace Treewalk

/-- The ways in which something may end. -/
abbrev Ending := Except EvalError Datum → Memory → Prop

namespace Ending

/-- The ways in which two things one after the other may end: the first fails, or it gives a value
and the next one ends from there. -/
def andThen (first : Ending) (next : Datum → Memory → Ending) : Ending := fun w μ =>
  (∃ c, w = .error c ∧ first (.error c) μ) ∨ ∃ d μ₁, first (.ok d) μ₁ ∧ next d μ₁ w μ

/-- Giving a value and changing nothing. -/
def gives (d : Datum) (μ : Memory) : Ending := fun w μ' => w = .ok d ∧ μ' = μ

theorem gives_andThen (d : Datum) (μ : Memory) (next : Datum → Memory → Ending) :
    (gives d μ).andThen next = next d μ := by
  funext w μ'
  simp [andThen, gives]

theorem andThen_assoc (first : Ending) (next last : Datum → Memory → Ending) :
    (first.andThen next).andThen last = first.andThen fun d μ => (next d μ).andThen last := by
  funext w μ'
  apply propext
  constructor
  · rintro (⟨c, rfl, ⟨_, ⟨⟩, h⟩ | ⟨d, μ₁, h, h'⟩⟩ | ⟨d, μ₁, ⟨_, ⟨⟩, _⟩ | ⟨d', μ₂, h, h'⟩, h''⟩)
    · exact .inl ⟨c, rfl, h⟩
    · exact .inr ⟨d, μ₁, h, .inl ⟨c, rfl, h'⟩⟩
    · exact .inr ⟨d', μ₂, h, .inr ⟨d, μ₁, h', h''⟩⟩
  · rintro (⟨c, rfl, h⟩ | ⟨d, μ₁, h, ⟨c, rfl, h'⟩ | ⟨d', μ₂, h', h''⟩⟩)
    · exact .inl ⟨c, rfl, .inl ⟨c, rfl, h⟩⟩
    · exact .inl ⟨c, rfl, .inr ⟨d, μ₁, h, h'⟩⟩
    · exact .inr ⟨d', μ₂, .inr ⟨d, μ₁, h, h'⟩, h''⟩

end Ending

/-! ### Lists of statements -/

theorem Tree.anyPresent_append (ts us : List Term) :
    anyPresent (ts ++ us) = (anyPresent ts || anyPresent us) := by
  induction ts with
  | nil => rfl
  | cons t ts ih => rw [List.cons_append, anyPresent, ih, anyPresent, Bool.or_assoc]

namespace Eval

variable {limit : Option Nat} {depth : Nat} {env : List ScopeId} {μ : Memory} {t : Term}
  {ts us : List Term}

/-- A list of statements none of which is there gives null. -/
theorem seq_nothing (nothing : Tree.anyPresent ts = false) :
    Eval limit depth env (.tree (.seq ts)) μ = Ending.gives .null μ := by
  funext w μ'
  apply propext
  constructor
  · intro h
    induction ts with
    | nil =>
      cases h with
      | absent => exact ⟨rfl, rfl⟩
      | operandError first => cases first
    | cons t ts ih =>
      rw [Tree.anyPresent, Bool.or_eq_false_iff] at nothing
      cases h with
      | absent => exact ⟨rfl, rfl⟩
      | operandError first => cases first
      | seqSkip _ rest => exact ih nothing.2 rest
      | seqLast here | seqNext here | seqError here => simp [nothing.1] at here
  · rintro ⟨rfl, rfl⟩
    exact .absent nothing

/-- A statement that is not there is passed over. -/
theorem seq_cons_absent (nothing : t.isPresent = false) :
    Eval limit depth env (.tree (.seq (t :: ts))) μ = Eval limit depth env (.tree (.seq ts)) μ := by
  funext w μ'
  apply propext
  constructor
  · intro h
    cases h with
    | absent all =>
      rw [Tree.isPresent, Tree.anyPresent, nothing, Bool.false_or] at all
      exact .absent all
    | operandError first => cases first
    | seqSkip _ rest => exact rest
    | seqLast here | seqNext here | seqError here => simp [nothing] at here
  · exact .seqSkip nothing

/-- The last statement that is there gives the value of the list. -/
theorem seq_cons_last (here : t.isPresent = true) (last : Tree.anyPresent ts = false) :
    Eval limit depth env (.tree (.seq (t :: ts))) μ = Eval limit depth env (.tree t) μ := by
  funext w μ'
  apply propext
  constructor
  · intro h
    cases h with
    | absent nothing => simp [Tree.isPresent, Tree.anyPresent, here] at nothing
    | operandError first => cases first
    | seqSkip nothing => simp [here] at nothing
    | seqLast _ _ value => exact value
    | seqNext _ more | seqError _ more => simp [last] at more
  · exact .seqLast here last

/-- A statement before others that are there runs first. -/
theorem seq_cons_next (here : t.isPresent = true) (more : Tree.anyPresent ts = true) :
    Eval limit depth env (.tree (.seq (t :: ts))) μ =
      Ending.andThen (Eval limit depth env (.tree t) μ) fun _ μ₁ =>
        Eval limit depth env (.tree (.seq ts)) μ₁ := by
  funext w μ'
  apply propext
  constructor
  · intro h
    cases h with
    | absent nothing => simp [Tree.isPresent, Tree.anyPresent, here] at nothing
    | operandError first => cases first
    | seqSkip nothing => simp [here] at nothing
    | seqLast _ last => simp [more] at last
    | seqNext _ _ first rest => exact .inr ⟨_, _, first, rest⟩
    | seqError _ _ first => exact .inl ⟨_, rfl, first⟩
  · rintro (⟨c, rfl, first⟩ | ⟨d, μ₁, first, rest⟩)
    · exact .seqError here more first
    · exact .seqNext here more first rest

/-- A list of statements runs its first part and then the rest, of which something is there. -/
theorem seq_append (present : Tree.anyPresent us = true) :
    Eval limit depth env (.tree (.seq (ts ++ us))) μ =
      Ending.andThen (Eval limit depth env (.tree (.seq ts)) μ) fun _ μ₁ =>
        Eval limit depth env (.tree (.seq us)) μ₁ := by
  induction ts generalizing μ with
  | nil =>
    have nothing : Tree.anyPresent ([] : List Term) = false := rfl
    rw [List.nil_append, seq_nothing nothing, Ending.gives_andThen]
  | cons t ts ih =>
    rw [List.cons_append]
    cases here : t.isPresent with
    | false => rw [seq_cons_absent here, seq_cons_absent here, ih]
    | true =>
      have more : Tree.anyPresent (ts ++ us) = true := by
        rw [Tree.anyPresent_append, present, Bool.or_true]
      rw [seq_cons_next here more, funext₂ fun _ _ => ih]
      cases hts : Tree.anyPresent ts with
      | true => rw [seq_cons_next here hts, Ending.andThen_assoc]
      | false =>
        rw [seq_cons_last here hts]
        simp only [seq_nothing hts, Ending.gives_andThen]

end Eval

/-! ### Two arenas in turn -/

/-- Two interpreters over different arenas in turn end as the rules let two trees end. -/
theorem Interpreter.Follows.endAlike_andThen {it : Interpreter} {k : Sink} {limit : Option Nat}
    {depth : Nat} {env : List ScopeId} {s : State} {μ : Memory} {t u : Term} {i j : NodeId}
    (hit : it.Follows k limit depth env s μ) (ht : t.Denotes it.names it.code.arena i) (code : Code)
    (hu : u.Denotes it.names code.arena j) :
    EndAlike (Outcome.Represents it.names k)
      (EvalM.Ends (fun n => it.evalWith n i >>= fun _ => evalWith n { it with code := code } j) s)
      fun x => Ending.andThen (Eval limit depth env (.tree t) μ)
        (fun _ μ₁ => Eval limit depth env (.tree u) μ₁) x.1 x.2 := by
  have next : ∀ s' μ', s.store.Grows s'.store → s'.Represents it.names k μ' →
      Follows { it with code := code } k limit depth env s' μ' := fun s' μ' grown hs =>
    ⟨hit.names, hit.limit, hit.depth, hit.around.grows grown, hs⟩
  refine ⟨fun r hr => ?_, fun x hx => ?_⟩
  · obtain ⟨n, hn⟩ := hr.settles
    have allowed : Outcome.Allowed it.names k
        (Ending.andThen (Eval limit depth env (.tree t) μ) fun _ μ₁ =>
          Eval limit depth env (.tree u) μ₁) s
        ((it.evalWith n i >>= fun _ => evalWith n { it with code := code } j) s) := by
      refine (evalWith_sound n hit ht).bind (fun c μ' h => .inl ⟨c, rfl, h⟩) ?_
      intro v s' d μ' first _ hs grown
      exact (evalWith_sound n (next s' μ' grown hs) hu).mono
        fun w μ'' second => .inr ⟨d, μ', first, second⟩
    rw [hn n (Nat.le_refl n)] at allowed
    obtain ⟨w, μ', hrules, hrep, _⟩ := allowed hr.finished
    exact ⟨(w, μ'), hrules, hrep⟩
  · obtain ⟨w, μ'⟩ := x
    have reaches : Reaches it.names k
        (fun n => it.evalWith n i >>= fun _ => evalWith n { it with code := code } j) s w μ' := by
      rcases hx with ⟨c, rfl, first⟩ | ⟨d, μ₁, first, second⟩
      · exact (first.reaches hit ⟨i, ht, rfl⟩).bind_error
      · refine (first.reaches hit ⟨i, ht, rfl⟩).bind fun v s' _ hs grown => ?_
        exact second.reaches (next s' μ₁ grown hs) ⟨j, hu, rfl⟩
    obtain ⟨r, hr, hrep, _⟩ := reaches
    exact ⟨r, hr, hrep⟩

/-! ### Outcomes -/

/-- The closures have the same identity, parameters with the same text, the same scopes around them
and bodies that stand for the same tree, each in its own arena. -/
structure Closure.SameMeaning (names₁ names₂ : Interner) (s₁ s₂ : Store) (c₁ c₂ : Closure) :
    Prop where
  id : c₁.id = c₂.id
  params : List.Forall₂ (names₁.SameText names₂) c₁.params c₂.params
  env : c₁.env = c₂.env
  chain : s₁.chain c₁.env = s₂.chain c₂.env
  body : ∃ t : Term, t.Denotes names₁ c₁.code.arena c₁.body ∧ t.Denotes names₂ c₂.code.arena c₂.body

section Outcomes

variable {names₁ names₂ : Interner}

theorem Closure.sameMeaning {s₁ s₂ : Store} {c₁ c₂ : Closure} {f : Lambda}
    (h₁ : c₁.Represents names₁ s₁ f) (h₂ : c₂.Represents names₂ s₂ f) :
    c₁.SameMeaning names₁ names₂ s₁ s₂ c₂ := by
  have hchain : s₁.chain c₁.env = s₂.chain c₂.env := h₁.env.chain.trans h₂.env.chain.symm
  obtain ⟨outer₁, henv₁⟩ := h₁.env.head
  obtain ⟨outer₂, henv₂⟩ := h₂.env.head
  have henv : c₁.env = c₂.env := (List.cons.inj (henv₁.symm.trans henv₂)).1
  refine ⟨h₁.id.trans h₂.id.symm, ?_, henv, hchain, f.body, h₁.body, h₂.body⟩
  have hparams := h₁.params
  have hparams' := h₂.params
  generalize c₁.params = xs, c₂.params = ys, f.params = ps at hparams hparams'
  induction hparams generalizing ys with
  | nil =>
    cases hparams'
    exact .nil
  | cons hx _ ih =>
    cases hparams' with
    | cons hy hys => exact .cons ⟨_, hx, hy⟩ (ih _ hys)

theorem Value.sameMeaning {s₁ s₂ : Store} {v₁ v₂ : Value} {d : Datum}
    (h₁ : v₁.Represents names₁ s₁ d) (h₂ : v₂.Represents names₂ s₂ d) :
    Value.Alike (Closure.SameMeaning names₁ names₂ s₁ s₂) v₁ v₂ := by
  cases h₁ with
  | closure h₁ =>
    cases h₂ with
    | closure h₂ => exact .closure (Closure.sameMeaning h₁ h₂)
  | _ =>
    cases h₂
    exact .of_data rfl

/-- Outcomes that represent the same correspond. -/
theorem Outcome.corresponds_of_represents (wf₁ : names₁.WellFormed) (wf₂ : names₂.WellFormed)
    {k : Sink} {r₁ r₂ : Outcome Value} {x : Except EvalError Datum × Memory}
    (h₁ : r₁.Represents names₁ k x) (h₂ : r₂.Represents names₂ k x) :
    r₁.Corresponds names₁ names₂ (Closure.SameMeaning names₁ names₂) r₂ where
  result := by
    cases h₁ with
    | ok hv₁ _ =>
      cases h₂ with
      | ok hv₂ _ => exact .ok (Value.sameMeaning hv₁ hv₂)
    | error _ =>
      cases h₂
      exact .error
  sink := h₁.state.sink.trans h₂.state.sink.symm
  vars e p := by
    have left := h₁.state.store.named? wf₁ e p
    have right := h₂.state.store.named? wf₂ e p
    refine (left.comp right.flip).imp ?_
    rintro v₁ v₂ ⟨d, hv₁, hv₂⟩
    exact Value.sameMeaning hv₁ hv₂

end Outcomes

/-- Running a program piece by piece is running it whole. The trees `first ++ last` are built into
one arena, and `first` and `last` into two arenas over one interner; then the program and its two
pieces in turn, stopped after the first if that fails, end alike. The pieces share one outermost
scope and one sink. No table of nodes is so full that a node took the number that marks absent
ones. -/
theorem run_piecewise {names : Interner} (wf : names.WellFormed) {first last : List Term}
    (present : Tree.anyPresent last = true) {root root₁ root₂ : Option NodeId} {b b₁ b₂ : Builder}
    (built : Tree.buildProgram Empty.elim (first ++ last) ⟨names, {}⟩ = .ok root b)
    (built₁ : Tree.buildProgram Empty.elim first ⟨names, {}⟩ = .ok root₁ b₁)
    (built₂ : Tree.buildProgram Empty.elim last ⟨b₁.names, {}⟩ = .ok root₂ b₂)
    (fits : b.arena.size ≤ maxIndex) (fits₁ : b₁.arena.size ≤ maxIndex)
    (fits₂ : b₂.arena.size ≤ maxIndex) (number number₁ number₂ : Nat) (limit : Option Nat)
    (k : Sink) :
    EndAlike (Outcome.Corresponds b.names b₂.names (Closure.SameMeaning b.names b₂.names))
      ((Interpreter.start b.names ⟨number, b.arena⟩ limit).Ends (.ofOption root) (.start k))
      (EvalM.Ends (fun n => do
        let _ ← (Interpreter.start b₂.names ⟨number₁, b₁.arena⟩ limit).evalWith n (.ofOption root₁)
        (Interpreter.start b₂.names ⟨number₂, b₂.arena⟩ limit).evalWith n (.ofOption root₂))
        (.start k)) := by
  obtain ⟨wfb, hbuilt⟩ := Tree.built_of_buildProgram wf built
  obtain ⟨wfb₁, hbuilt₁⟩ := Tree.built_of_buildProgram wf built₁
  obtain ⟨grown, wfb₂, hbuilt₂⟩ := Tree.extends_of_buildProgram (b := ⟨b₁.names, {}⟩) wfb₁ built₂
  -- the strings that the second piece adds do not change what the first arena stands for
  have later : b₁.Extends ⟨b₂.names, b₁.arena⟩ :=
    ⟨Nat.le_refl _, fun _ _ h => h, fun _ _ h => h, fun _ _ h => h, grown.names⟩
  have pieces := (Interpreter.follows_start wfb₂ ⟨number₁, b₁.arena⟩ limit k).endAlike_andThen
    (hbuilt₁.denotes _ later fits₁) ⟨number₂, b₂.arena⟩ (hbuilt₂.denotes b₂ (.refl b₂) fits₂)
  have whole := hbuilt.endAlike wfb fits number limit k
  rw [Eval.seq_append present] at whole
  refine (whole.trans pieces.symm).mono ?_
  rintro r₁ r₂ ⟨x, h₁, h₂⟩
  exact Outcome.corresponds_of_represents wfb wfb₂ h₁ h₂

/-- A name that the first piece declares and the second one reads. -/
theorem run_piecewise_shared_name :
    ∃ b b₁ b₂ : Builder,
      b.arena.nodes = #[.int 7, .declare .empty ⟨0⟩, .ident .empty, .seq ⟨1⟩ ⟨2⟩] ∧
      b₁.arena.nodes = #[.int 7, .declare .empty ⟨0⟩] ∧ b₂.arena.nodes = #[.ident .empty] ∧
      EndAlike (Outcome.Corresponds b.names b₂.names (Closure.SameMeaning b.names b₂.names))
        ((Interpreter.start b.names ⟨0, b.arena⟩ none).Ends ⟨3⟩ (.start (.buffer #[])))
        (EvalM.Ends (fun n => do
          let _ ← (Interpreter.start b₂.names ⟨1, b₁.arena⟩ none).evalWith n ⟨1⟩
          (Interpreter.start b₂.names ⟨2, b₂.arena⟩ none).evalWith n ⟨0⟩)
          (.start (.buffer #[]))) := by
  have built : Tree.buildProgram Empty.elim ([.declare "" (.int 7)] ++ [.ident ""])
      ⟨.initial, {}⟩ = .ok (some ⟨3⟩) ⟨.initial,
        ⟨#[.int 7, .declare .empty ⟨0⟩, .ident .empty, .seq ⟨1⟩ ⟨2⟩], #[], #[]⟩⟩ := by
    simp [Tree.buildProgram, Tree.buildAll, Tree.build, Builder.declare, Builder.int, Builder.ident,
      Bind.bind, EStateM.bind, Functor.map, EStateM.map, Builder.alloc, Builder.onArena,
      Arena.allocNode, Builder.intern_empty, maxIndex]
    rfl
  have built₁ : Tree.buildProgram Empty.elim [.declare "" (.int 7)] ⟨.initial, {}⟩ =
      .ok (some ⟨1⟩) ⟨.initial, ⟨#[.int 7, .declare .empty ⟨0⟩], #[], #[]⟩⟩ := by
    simp [Tree.buildProgram, Tree.buildAll, Tree.build, Builder.declare, Builder.int, Bind.bind,
      EStateM.bind, Functor.map, EStateM.map, Builder.alloc, Builder.onArena, Arena.allocNode,
      Builder.intern_empty, maxIndex]
    rfl
  have built₂ : Tree.buildProgram Empty.elim [.ident ""] ⟨.initial, {}⟩ =
      .ok (some ⟨0⟩) ⟨.initial, ⟨#[.ident .empty], #[], #[]⟩⟩ := by
    simp [Tree.buildProgram, Tree.buildAll, Tree.build, Builder.ident, Bind.bind, EStateM.bind,
      Functor.map, EStateM.map, Builder.alloc, Builder.onArena, Arena.allocNode,
      Builder.intern_empty, maxIndex]
    rfl
  have alike := run_piecewise Interner.wellFormed_initial rfl built built₁ built₂ (by decide)
    (by decide) (by decide) 0 1 2 none (.buffer #[])
  exact ⟨_, _, _, rfl, rfl, rfl, alike⟩

end Treewalk
