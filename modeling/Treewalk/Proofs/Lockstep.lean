import Treewalk.Proofs.Matching

/-! Two evaluations of one expression, in stores and scopes that are matched, stay in step: they
take the same branches, print the same lines and stop for the same cause, and after each step the
stores are matched again. So an evaluation depends on the objects it can reach, and not on their
numbers. -/

namespace Treewalk

/-- The same interpreter in another scope. -/
def Interpreter.inScope (it : Interpreter) (e : ScopeId) : Interpreter := { it with env := e }

/-- The interpreters agree in all that a call takes from its caller. -/
structure Interpreter.SameCaller (it₁ it₂ : Interpreter) : Prop where
  names : it₁.names = it₂.names
  limit : it₁.limit = it₂.limit
  depth : it₁.depth = it₂.depth

theorem Interpreter.SameCaller.enter {it₁ it₂ : Interpreter} (h : it₁.SameCaller it₂)
    {c₁ c₂ : Closure} (code : c₁.code = c₂.code) (b₁ b₂ : ScopeId) :
    it₂.enter c₂ b₂ = (it₁.enter c₁ b₁).inScope b₂ := by
  simp only [Interpreter.enter, inScope, h.names, h.limit, h.depth, code]

namespace Matching

variable {α β α' β' : Type}

/-- Both computations gave results with `Q`, or stopped for the same cause, and left the same lines
and stores that are matched. -/
inductive Together (M : Matching) (Q : Matching → α → β → Prop) (s₁ s₂ : Store) :
    Outcome α → Outcome β → Prop where
  | ok {a : α} {b : β} {t₁ t₂ : Store} {k : Sink} (holds : M.Holds t₁ t₂)
      (later : M.Later s₁ s₂ t₁ t₂) (result : Q (M.upTo t₁ t₂) a b) :
      Together M Q s₁ s₂ (.ok a ⟨t₁, k⟩) (.ok b ⟨t₂, k⟩)
  | error {cause : Halt} {t₁ t₂ : Store} {k : Sink} (holds : M.Holds t₁ t₂)
      (later : M.Later s₁ s₂ t₁ t₂) :
      Together M Q s₁ s₂ (.error cause ⟨t₁, k⟩) (.error cause ⟨t₂, k⟩)

/-- From the stores `s₁` and `s₂`, the computations stay in step whatever was printed before. -/
def Lockstep (M : Matching) (Q : Matching → α → β → Prop) (s₁ s₂ : Store) (m₁ : EvalM α)
    (m₂ : EvalM β) : Prop :=
  ∀ k, M.Together Q s₁ s₂ (m₁ ⟨s₁, k⟩) (m₂ ⟨s₂, k⟩)

variable {M : Matching} {s₁ s₂ : Store}

namespace Together

variable {Q : Matching → α → β → Prop} {r₁ : Outcome α} {r₂ : Outcome β}

theorem holds (h : M.Together Q s₁ s₂ r₁ r₂) : M.Holds r₁.state.store r₂.state.store := by
  cases h <;> assumption

theorem later (h : M.Together Q s₁ s₂ r₁ r₂) : M.Later s₁ s₂ r₁.state.store r₂.state.store := by
  cases h <;> assumption

theorem sink_eq (h : M.Together Q s₁ s₂ r₁ r₂) : r₁.state.sink = r₂.state.sink := by
  cases h <;> rfl

theorem finished (h : M.Together Q s₁ s₂ r₁ r₂) : r₁.Finished ↔ r₂.Finished := by
  cases h with
  | ok => exact Iff.rfl
  | @error cause => cases cause <;> exact Iff.rfl

theorem result {a : α} {b : β} {t₁ t₂ : State} (h : M.Together Q s₁ s₂ (.ok a t₁) (.ok b t₂)) :
    Q (M.upTo t₁.store t₂.store) a b := by
  cases h with
  | ok _ _ hab => exact hab

end Together

namespace Lockstep

variable {Q : Matching → α → β → Prop} {R : Matching → α' → β' → Prop} {m₁ : EvalM α}
  {m₂ : EvalM β}

theorem pure {a : α} {b : β} (h : M.Holds s₁ s₂) (hab : Q (M.upTo s₁ s₂) a b) :
    M.Lockstep Q s₁ s₂ (pure a) (pure b) :=
  fun _ => .ok h (.refl s₁ s₂) hab

theorem throw (h : M.Holds s₁ s₂) (cause : Halt) :
    M.Lockstep Q s₁ s₂ (throw cause) (throw cause) :=
  fun _ => .error h (.refl s₁ s₂)

theorem bind {f₁ : α → EvalM α'} {f₂ : β → EvalM β'} (h : M.Lockstep Q s₁ s₂ m₁ m₂)
    (hf : ∀ a b t₁ t₂, M.Holds t₁ t₂ → M.Later s₁ s₂ t₁ t₂ → Q (M.upTo t₁ t₂) a b →
      M.Lockstep R t₁ t₂ (f₁ a) (f₂ b)) :
    M.Lockstep R s₁ s₂ (m₁ >>= f₁) (m₂ >>= f₂) := by
  intro k
  have hm := h k
  simp only [Bind.bind, EStateM.bind]
  generalize m₁ ⟨s₁, k⟩ = r₁, m₂ ⟨s₂, k⟩ = r₂ at hm
  cases hm with
  | @ok a b t₁ t₂ k' holds later hab =>
    have hrest := hf a b t₁ t₂ holds later hab k'
    simp only
    generalize f₁ a ⟨t₁, k'⟩ = r₁, f₂ b ⟨t₂, k'⟩ = r₂ at hrest
    cases hrest with
    | ok holds' later' hab' => exact .ok holds' (later.trans later') hab'
    | error holds' later' => exact .error holds' (later.trans later')
  | error holds later => exact .error holds later

theorem onStore {f₁ : Store → α × Store} {f₂ : Store → β × Store}
    (holds : M.Holds (f₁ s₁).2 (f₂ s₂).2) (later : M.Later s₁ s₂ (f₁ s₁).2 (f₂ s₂).2)
    (result : Q (M.upTo (f₁ s₁).2 (f₂ s₂).2) (f₁ s₁).1 (f₂ s₂).1) :
    M.Lockstep Q s₁ s₂ (EvalM.onStore f₁) (EvalM.onStore f₂) :=
  fun _ => .ok holds later result

theorem ofExcept {x : Except EvalError α} {y : Except EvalError β} (h : M.Holds s₁ s₂)
    (hxy : ExceptAlike (Q (M.upTo s₁ s₂)) x y) :
    M.Lockstep Q s₁ s₂ (EvalM.ofExcept x) (EvalM.ofExcept y) := by
  cases hxy with
  | ok hab => exact pure h hab
  | error => exact throw h _

theorem ofLookup (h : M.Holds s₁ s₂) (o : Option α) :
    M.Lockstep (fun _ a b => a = b) s₁ s₂ (EvalM.ofLookup o) (EvalM.ofLookup o) := by
  cases o with
  | some a => exact pure h rfl
  | none => exact throw h _

theorem writeLine (h : M.Holds s₁ s₂) (line : String) :
    M.Lockstep (fun _ _ _ => True) s₁ s₂ (EvalM.writeLine line) (EvalM.writeLine line) :=
  fun _ => .ok h (.refl s₁ s₂) trivial

end Lockstep

/-! ### Scopes and calls -/

section Steps

variable {e₁ e₂ b₁ b₂ : ScopeId} {v₁ v₂ : Value}

theorem lookup_lockstep (it : Interpreter) (h : M.Holds s₁ s₂) (he : (M.upTo s₁ s₂).scope e₁ e₂)
    (x : Name) :
    M.Lockstep SameValue s₁ s₂ ((it.inScope e₁).lookup x) ((it.inScope e₂).lookup x) :=
  fun _ => .ok h (.refl s₁ s₂) (h.resolve he x)

theorem declareIn_lockstep {it₁ it₂ : Interpreter} (names : it₁.names = it₂.names)
    (h : M.Holds s₁ s₂) (hb : (M.upTo s₁ s₂).scope b₁ b₂) (x : Name)
    (hv : (M.upTo s₁ s₂).SameValue v₁ v₂) :
    M.Lockstep (fun _ _ _ => True) s₁ s₂ (it₁.declareIn b₁ x v₁) (it₂.declareIn b₂ x v₂) := by
  unfold Interpreter.declareIn
  rw [names]
  have hdeclare : M.Lockstep (fun _ a b => a = b) s₁ s₂ (EvalM.onStore (·.declare b₁ x v₁))
      (EvalM.onStore (·.declare b₂ x v₂)) := by
    unfold Store.declare
    intro k
    simp only [EvalM.onStore, h.iso.bindsLocally_eq hb x]
    split
    · exact .ok h (.refl s₁ s₂) rfl
    · exact .ok (h.bind hb x hv) (Holds.later_bind hb x) rfl
  refine hdeclare.bind ?_
  rintro outcome _ t₁ t₂ holds _ rfl
  cases outcome with
  | declared => exact .pure holds trivial
  | duplicate => exact .throw holds _

theorem declareParams_lockstep {it₁ it₂ : Interpreter} (names : it₁.names = it₂.names)
    (h : M.Holds s₁ s₂) (hb : (M.upTo s₁ s₂).scope b₁ b₂) (xs : List Name) {vs₁ vs₂ : List Value}
    (hvs : List.Forall₂ (M.upTo s₁ s₂).SameValue vs₁ vs₂) :
    M.Lockstep (fun _ _ _ => True) s₁ s₂ (it₁.declareParams b₁ xs vs₁)
      (it₂.declareParams b₂ xs vs₂) := by
  induction xs generalizing s₁ s₂ vs₁ vs₂ with
  | nil => exact .pure h trivial
  | cons x xs ih =>
    cases hvs with
    | nil => exact .pure h trivial
    | cons hv hvs =>
      refine (declareIn_lockstep names h hb x hv).bind fun _ _ t₁ t₂ holds later _ => ?_
      exact ih holds (later.within.scope _ _ hb) (hvs.imp fun _ _ hv => hv.mono later.within)

theorem checkLimit_lockstep {it₁ it₂ : Interpreter} (same : it₁.SameCaller it₂)
    (h : M.Holds s₁ s₂) :
    M.Lockstep (fun _ _ _ => True) s₁ s₂ it₁.checkLimit it₂.checkLimit := by
  unfold Interpreter.checkLimit
  rw [same.limit, same.depth]
  split
  · split
    · exact .throw h _
    · exact .pure h trivial
  · exact .pure h trivial

end Steps

/-! ### Expressions -/

/-- The evaluator stays in step in paired scopes. -/
def InStep (M : Matching) (ev : Interpreter → NodeId → EvalM Value) : Prop :=
  ∀ (it : Interpreter) (id : NodeId) {s₁ s₂ : Store} {e₁ e₂ : ScopeId}, M.Holds s₁ s₂ →
    (M.upTo s₁ s₂).scope e₁ e₂ →
    M.Lockstep SameValue s₁ s₂ (ev (it.inScope e₁) id) (ev (it.inScope e₂) id)

namespace InStep

variable {ev : Interpreter → NodeId → EvalM Value} {e₁ e₂ : ScopeId}

theorem apply (hev : M.InStep ev) {it₁ it₂ : Interpreter} (same : it₁.SameCaller it₂)
    (h : M.Holds s₁ s₂) {c₁ c₂ : Closure} (hc : (M.upTo s₁ s₂).closure c₁ c₂)
    {vs₁ vs₂ : List Value} (hvs : List.Forall₂ (M.upTo s₁ s₂).SameValue vs₁ vs₂) :
    M.Lockstep SameValue s₁ s₂ (it₁.apply ev c₁ vs₁) (it₂.apply ev c₂ vs₂) := by
  have hparams : c₁.params = c₂.params := (M.upTo s₁ s₂).params hc
  have hbody : c₁.body = c₂.body := (M.upTo s₁ s₂).body hc
  have hcode : c₁.code = c₂.code := (M.upTo s₁ s₂).code hc
  unfold Interpreter.apply
  rw [Closure.arity, Closure.arity, ← hparams, ← hbody, hvs.length_eq]
  split
  · refine (checkLimit_lockstep same h).bind fun _ _ t₁ t₂ holds later _ => ?_
    have henv := later.within.scope _ _ ((M.upTo s₁ s₂).env hc)
    have hchild : M.Lockstep Matching.scope t₁ t₂ (EvalM.onStore (·.child c₁.env))
        (EvalM.onStore (·.child c₂.env)) :=
      .onStore (holds.child henv) (Holds.later_child _ _) (holds.child_scope _ _)
    refine hchild.bind fun b₁ b₂ u₁ u₂ holds' later' hb => ?_
    have hvs' := hvs.imp fun _ _ hv => hv.mono (later.trans later').within
    refine (declareParams_lockstep same.names holds' hb c₁.params hvs').bind
      fun _ _ w₁ w₂ holds'' later'' _ => ?_
    rw [same.enter hcode b₁ b₂]
    exact hev (it₁.enter c₁ b₁) c₁.body holds'' (later''.within.scope _ _ hb)
  · exact .throw h _

/-- Arguments are evaluated from left to right. -/
theorem mapM (hev : M.InStep ev) (it : Interpreter) (h : M.Holds s₁ s₂)
    (he : (M.upTo s₁ s₂).scope e₁ e₂) (ids : List NodeId) :
    M.Lockstep (fun N => List.Forall₂ N.SameValue) s₁ s₂ (ids.mapM (ev (it.inScope e₁)))
      (ids.mapM (ev (it.inScope e₂))) := by
  induction ids generalizing s₁ s₂ with
  | nil => exact .pure h .nil
  | cons id ids ih =>
    rw [List.mapM_cons, List.mapM_cons]
    refine (hev it id h he).bind fun v₁ v₂ t₁ t₂ holds later hv => ?_
    refine (ih holds (later.within.scope _ _ he)).bind fun vs₁ vs₂ u₁ u₂ holds' later' hvs => ?_
    exact .pure holds' (.cons (hv.mono later'.within) hvs)

theorem iterate (hev : M.InStep ev) (it : Interpreter) (h : M.Holds s₁ s₂)
    (he : (M.upTo s₁ s₂).scope e₁ e₂) (test body : NodeId) (n : Nat) :
    M.Lockstep SameValue s₁ s₂
      (Interpreter.iterate (ev (it.inScope e₁) test) (ev (it.inScope e₁) body) n)
      (Interpreter.iterate (ev (it.inScope e₂) test) (ev (it.inScope e₂) body) n) := by
  induction n generalizing s₁ s₂ with
  | zero => exact .throw h _
  | succ n ih =>
    rw [Interpreter.iterate, Interpreter.iterate]
    refine (hev it test h he).bind fun v₁ v₂ t₁ t₂ holds later hv => ?_
    have he' := later.within.scope _ _ he
    cases hv with
    | @bool b =>
      cases b with
      | true =>
        refine (hev it body holds he').bind fun _ _ u₁ u₂ holds' later' _ => ?_
        exact ih holds' (later'.within.scope _ _ he')
      | false => exact .pure holds .null
    | _ => exact .throw holds _

theorem evalNode (hev : M.InStep ev) (n : Nat) (it : Interpreter) (h : M.Holds s₁ s₂)
    (he : (M.upTo s₁ s₂).scope e₁ e₂) (node : Node) :
    M.Lockstep SameValue s₁ s₂ ((it.inScope e₁).evalNode ev n node)
      ((it.inScope e₂).evalNode ev n node) := by
  cases node with
  | int i => exact .pure h .int
  | bool b => exact .pure h .bool
  | null => exact .pure h .null
  | ident x => exact lookup_lockstep it h he x
  | print e =>
    refine (hev it e h he).bind fun v₁ v₂ t₁ t₂ holds _ hv => ?_
    rw [hv.display]
    exact (Lockstep.writeLine holds _).bind fun _ _ u₁ u₂ holds' later' _ =>
      .pure holds' (hv.mono later'.within)
  | binary op l r =>
    refine (hev it l h he).bind fun v₁ v₂ t₁ t₂ holds later hv => ?_
    refine (hev it r holds (later.within.scope _ _ he)).bind
      fun w₁ w₂ u₁ u₂ holds' later' hw => ?_
    exact .ofExcept holds' (SameValue.apply op (hv.mono later'.within) hw)
  | cond c t e =>
    refine (hev it c h he).bind fun v₁ v₂ t₁ t₂ holds later hv => ?_
    have he' := later.within.scope _ _ he
    cases hv with
    | @bool b =>
      cases b with
      | true => exact hev it t holds he'
      | false => exact hev it e holds he'
    | _ => exact .throw holds _
  | loop c b => exact hev.iterate it h he c b n
  | seq a b =>
    refine (hev it a h he).bind fun _ _ t₁ t₂ holds later _ => ?_
    exact hev it b holds (later.within.scope _ _ he)
  | block e =>
    have hchild : M.Lockstep Matching.scope s₁ s₂ (EvalM.onStore (·.child e₁))
        (EvalM.onStore (·.child e₂)) :=
      .onStore (h.child he) (Holds.later_child _ _) (h.child_scope _ _)
    refine hchild.bind fun b₁ b₂ t₁ t₂ holds _ hb => ?_
    exact hev it e holds hb
  | declare x e =>
    refine (hev it e h he).bind fun v₁ v₂ t₁ t₂ holds later hv => ?_
    have he' := later.within.scope _ _ he
    refine (declareIn_lockstep rfl holds he' x hv).bind fun _ _ u₁ u₂ holds' later' _ => ?_
    exact lookup_lockstep it holds' (later'.within.scope _ _ he') x
  | assign x e =>
    refine (hev it e h he).bind fun v₁ v₂ t₁ t₂ holds later hv => ?_
    have he' := later.within.scope _ _ he
    have hupdate := holds.update he' x hv
    have hassign : M.Lockstep (fun _ _ _ => True) t₁ t₂ (EvalM.onStore (·.update e₁ x v₁))
        (EvalM.onStore (·.update e₂ x v₂)) := .onStore hupdate.1 hupdate.2 trivial
    refine hassign.bind fun _ _ u₁ u₂ holds' later' _ => ?_
    exact lookup_lockstep it holds' (later'.within.scope _ _ he') x
  | function params body =>
    refine (Lockstep.ofLookup h (it.code.arena.parameters? params)).bind ?_
    rintro xs _ t₁ t₂ holds later rfl
    have he' := later.within.scope _ _ he
    have hmake : M.Lockstep Matching.closure t₁ t₂
        (EvalM.onStore (·.newClosure xs body e₁ it.code))
        (EvalM.onStore (·.newClosure xs body e₂ it.code)) :=
      .onStore (holds.newClosure xs body it.code e₁ e₂) (Holds.later_newClosure xs body it.code _ _)
        (holds.newClosure_closure xs body it.code he')
    exact hmake.bind fun _ _ u₁ u₂ holds' _ hc => .pure holds' (.closure hc)
  | call f args =>
    refine (hev it f h he).bind fun v₁ v₂ t₁ t₂ holds later hv => ?_
    have he' := later.within.scope _ _ he
    cases hv with
    | closure hc =>
      refine (Lockstep.ofLookup holds (it.code.arena.arguments? args)).bind ?_
      rintro ids _ u₁ u₂ holds' later' rfl
      refine (hev.mapM it holds' (later'.within.scope _ _ he') ids).bind
        fun vs₁ vs₂ w₁ w₂ holds'' later'' hvs => ?_
      have hc' := (later'.trans later'').within.closure _ _ hc
      have same : (it.inScope e₁).SameCaller (it.inScope e₂) := ⟨rfl, rfl, rfl⟩
      exact hev.apply same holds'' hc' hvs
    | _ => exact .throw holds _

end InStep

/-- The evaluator stays in step, whatever the fuel. -/
theorem evalWith_inStep (M : Matching) (n : Nat) : M.InStep (Interpreter.evalWith n) := by
  induction n with
  | zero => exact fun _ _ _ _ _ _ h _ => .throw h _
  | succ n ih =>
    intro it id s₁ s₂ e₁ e₂ h he
    rw [Interpreter.evalWith_succ, Interpreter.evalWith_succ]
    unfold Interpreter.evalStep
    split
    · refine (Lockstep.ofLookup h (it.code.arena.node? id)).bind ?_
      rintro node _ t₁ t₂ holds later rfl
      exact ih.evalNode n it holds (later.within.scope _ _ he) node
    · exact .pure h .null

theorem callWith_lockstep (M : Matching) (n : Nat) {it₁ it₂ : Interpreter}
    (same : it₁.SameCaller it₂) {s₁ s₂ : Store} (h : M.Holds s₁ s₂) {f₁ f₂ : Value}
    (hf : (M.upTo s₁ s₂).SameValue f₁ f₂) {vs₁ vs₂ : List Value}
    (hvs : List.Forall₂ (M.upTo s₁ s₂).SameValue vs₁ vs₂) :
    M.Lockstep SameValue s₁ s₂ (it₁.callWith n f₁ vs₁) (it₂.callWith n f₂ vs₂) := by
  cases hf with
  | closure hc => exact (evalWith_inStep M n).apply same h hc hvs
  | _ => exact .throw h _

end Matching

end Treewalk
