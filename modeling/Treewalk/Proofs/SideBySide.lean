import Treewalk.Proofs.LexicalScoping
import Treewalk.Proofs.Translation

/-! Two runs side by side, and how their outcomes compare. Evaluations of a shared expression, in
stores that a translation relates, take the same branches, print the same lines and stop for the
same cause, and afterwards the stores are related again. Neither of them looks outside the tables of
an arena, and a declaration that fails is one of a name that is paired. -/

namespace Treewalk

/-! ### Outcomes -/

/-- The same error or values that are alike, the same lines, and in every scope the same strings
bound to values that are alike. Which closures are alike may depend on the final stores. -/
structure Outcome.Corresponds (names₁ names₂ : Interner)
    (C : Store → Store → Closure → Closure → Prop) (r₁ r₂ : Outcome Value) : Prop where
  result : r₁.Alike (Value.Alike (C r₁.state.store r₂.state.store)) r₂
  sink : r₁.state.sink = r₂.state.sink
  vars : ∀ e p, Option.Rel (Value.Alike (C r₁.state.store r₂.state.store))
    (r₁.state.store.named? names₁ e p) (r₂.state.store.named? names₂ e p)

/-! ### Computations in step -/

namespace Translation

variable {α β α' β' : Type}

/-- The causes that can stop runs side by side. -/
def Stops (T : Translation) : Halt → Prop
  | .fault => False
  | .error (.duplicateDeclaration p) => ∃ x₁ x₂, T.name x₁ x₂ ∧ p = T.names₁.lookup x₁
  | _ => True

/-- Both computations gave results with `Q`, or stopped for the same cause. They printed the same
lines and left stores that are related. -/
inductive Together (T : Translation) (Q : α → β → Prop) (s₁ s₂ : Store) (k₁ k₂ : Sink) :
    Outcome α → Outcome β → Prop where
  | ok {a : α} {b : β} {t₁ t₂ : Store} (lines : List String) (holds : T.Holds t₁ t₂)
      (later : T.Later s₁ s₂ t₁ t₂) (result : Q a b) :
      Together T Q s₁ s₂ k₁ k₂ (.ok a ⟨t₁, lines.foldl Sink.writeLine k₁⟩)
        (.ok b ⟨t₂, lines.foldl Sink.writeLine k₂⟩)
  | error {cause : Halt} {t₁ t₂ : Store} (lines : List String) (holds : T.Holds t₁ t₂)
      (later : T.Later s₁ s₂ t₁ t₂) (stops : T.Stops cause) :
      Together T Q s₁ s₂ k₁ k₂ (.error cause ⟨t₁, lines.foldl Sink.writeLine k₁⟩)
        (.error cause ⟨t₂, lines.foldl Sink.writeLine k₂⟩)

/-- From the stores `s₁` and `s₂`, the computations stay side by side whatever was printed
before. -/
def Lockstep (T : Translation) (Q : α → β → Prop) (s₁ s₂ : Store) (m₁ : EvalM α) (m₂ : EvalM β) :
    Prop :=
  ∀ k₁ k₂, T.Together Q s₁ s₂ k₁ k₂ (m₁ ⟨s₁, k₁⟩) (m₂ ⟨s₂, k₂⟩)

variable {T : Translation} {s₁ s₂ : Store}

namespace Together

variable {Q : α → β → Prop} {k₁ k₂ : Sink} {r₁ : Outcome α} {r₂ : Outcome β}

theorem holds (h : T.Together Q s₁ s₂ k₁ k₂ r₁ r₂) : T.Holds r₁.state.store r₂.state.store := by
  cases h <;> assumption

theorem later (h : T.Together Q s₁ s₂ k₁ k₂ r₁ r₂) :
    T.Later s₁ s₂ r₁.state.store r₂.state.store := by
  cases h <;> assumption

theorem printed (h : T.Together Q s₁ s₂ k₁ k₂ r₁ r₂) :
    ∃ lines : List String, r₁.state.sink = lines.foldl Sink.writeLine k₁ ∧
      r₂.state.sink = lines.foldl Sink.writeLine k₂ := by
  cases h with
  | ok lines | error lines => exact ⟨lines, rfl, rfl⟩

theorem finished (h : T.Together Q s₁ s₂ k₁ k₂ r₁ r₂) : r₁.Finished ↔ r₂.Finished := by
  cases h with
  | ok => exact Iff.rfl
  | @error cause => cases cause <;> exact Iff.rfl

end Together

namespace Lockstep

variable {Q : α → β → Prop} {R : α' → β' → Prop} {m₁ : EvalM α} {m₂ : EvalM β}

theorem pure {a : α} {b : β} (h : T.Holds s₁ s₂) (hab : Q a b) :
    T.Lockstep Q s₁ s₂ (pure a) (pure b) :=
  fun _ _ => .ok [] h (.refl s₁ s₂) hab

theorem throw {cause : Halt} (h : T.Holds s₁ s₂) (stops : T.Stops cause) :
    T.Lockstep Q s₁ s₂ (throw cause) (throw cause) :=
  fun _ _ => .error [] h (.refl s₁ s₂) stops

theorem bind {f₁ : α → EvalM α'} {f₂ : β → EvalM β'} (h : T.Lockstep Q s₁ s₂ m₁ m₂)
    (hf : ∀ a b t₁ t₂, T.Holds t₁ t₂ → T.Later s₁ s₂ t₁ t₂ → Q a b →
      T.Lockstep R t₁ t₂ (f₁ a) (f₂ b)) :
    T.Lockstep R s₁ s₂ (m₁ >>= f₁) (m₂ >>= f₂) := by
  intro k₁ k₂
  have hm := h k₁ k₂
  simp only [Bind.bind, EStateM.bind]
  generalize m₁ ⟨s₁, k₁⟩ = r₁, m₂ ⟨s₂, k₂⟩ = r₂ at hm
  cases hm with
  | @ok a b t₁ t₂ lines holds later hab =>
    have hrest := hf a b t₁ t₂ holds later hab (lines.foldl Sink.writeLine k₁)
      (lines.foldl Sink.writeLine k₂)
    simp only
    generalize f₁ a _ = r₁, f₂ b _ = r₂ at hrest
    cases hrest with
    | ok lines' holds' later' hab' =>
      rw [← List.foldl_append, ← List.foldl_append]
      exact .ok _ holds' (later.trans later') hab'
    | error lines' holds' later' stops =>
      rw [← List.foldl_append, ← List.foldl_append]
      exact .error _ holds' (later.trans later') stops
  | error lines holds later stops => exact .error lines holds later stops

theorem onStore {f₁ : Store → α × Store} {f₂ : Store → β × Store}
    (holds : T.Holds (f₁ s₁).2 (f₂ s₂).2) (later : T.Later s₁ s₂ (f₁ s₁).2 (f₂ s₂).2)
    (result : Q (f₁ s₁).1 (f₂ s₂).1) :
    T.Lockstep Q s₁ s₂ (EvalM.onStore f₁) (EvalM.onStore f₂) :=
  fun _ _ => .ok [] holds later result

theorem child {e₁ e₂ : ScopeId} (h : T.Holds s₁ s₂) (he : T.scope e₁ e₂) :
    T.Lockstep T.scope s₁ s₂ (EvalM.onStore (·.child e₁)) (EvalM.onStore (·.child e₂)) :=
  .onStore (h.child he) (.child e₁ e₂) (h.nextScope 0)

theorem writeLine (h : T.Holds s₁ s₂) (line : String) :
    T.Lockstep (fun _ _ => True) s₁ s₂ (EvalM.writeLine line) (EvalM.writeLine line) :=
  fun _ _ => .ok [line] h (.refl s₁ s₂) trivial

theorem binary {v₁ v₂ w₁ w₂ : Value} (h : T.Holds s₁ s₂) (op : Operator)
    (hv : T.SameValue v₁ v₂) (hw : T.SameValue w₁ w₂) :
    T.Lockstep T.SameValue s₁ s₂ (EvalM.ofExcept (op.apply v₁ w₁))
      (EvalM.ofExcept (op.apply v₂ w₂)) := by
  rw [SameValue.apply_eq op hv hw]
  cases hop : op.apply v₂ w₂ with
  | ok v => exact .pure h (.of_data (Operator.closure?_apply hop))
  | error cause =>
    refine .throw h ?_
    cases cause with
    | duplicateDeclaration p => exact absurd rfl (Operator.ne_duplicateDeclaration hop p)
    | _ => trivial

end Lockstep

/-! ### Scopes and calls -/

/-- The interpreters agree in all that a call takes from its caller. -/
structure SameCaller (T : Translation) (it₁ it₂ : Interpreter) : Prop where
  names₁ : it₁.names = T.names₁
  names₂ : it₂.names = T.names₂
  limit : it₁.limit = it₂.limit
  depth : it₁.depth = it₂.depth

/-- The interpreters also run in paired scopes. -/
structure SameScope (T : Translation) (it₁ it₂ : Interpreter) : Prop extends
    T.SameCaller it₁ it₂ where
  env : T.scope it₁.env it₂.env

section Steps

variable {it₁ it₂ : Interpreter} {b₁ b₂ : ScopeId} {x₁ x₂ : Name} {v₁ v₂ : Value}

theorem lookup_lockstep (same : T.SameScope it₁ it₂) (h : T.Holds s₁ s₂) (hx : T.name x₁ x₂) :
    T.Lockstep T.SameValue s₁ s₂ (it₁.lookup x₁) (it₂.lookup x₂) :=
  fun _ _ => .ok [] h (.refl s₁ s₂) (.getD (h.resolve same.env hx))

theorem declareIn_lockstep (same : T.SameCaller it₁ it₂) (h : T.Holds s₁ s₂)
    (hb : T.scope b₁ b₂) (hx : T.name x₁ x₂) (hv : T.SameValue v₁ v₂) :
    T.Lockstep (fun _ _ => True) s₁ s₂ (it₁.declareIn b₁ x₁ v₁) (it₂.declareIn b₂ x₂ v₂) := by
  unfold Interpreter.declareIn
  have hdeclare : T.Lockstep Eq s₁ s₂ (EvalM.onStore (·.declare b₁ x₁ v₁))
      (EvalM.onStore (·.declare b₂ x₂ v₂)) := by
    unfold Store.declare
    intro k₁ k₂
    simp only [EvalM.onStore, h.bindsLocally_eq hb hx]
    split
    · exact .ok [] h (.refl s₁ s₂) rfl
    · exact .ok [] (h.bind hb hx hv) (.bind hb hx) rfl
  refine hdeclare.bind ?_
  rintro outcome _ t₁ t₂ holds _ rfl
  cases outcome with
  | declared => exact .pure holds trivial
  | duplicate =>
    rw [same.names₁, same.names₂, ← T.text hx]
    exact .throw holds ⟨x₁, x₂, hx, rfl⟩

theorem declareParams_lockstep (same : T.SameCaller it₁ it₂) (h : T.Holds s₁ s₂)
    (hb : T.scope b₁ b₂) {xs₁ xs₂ : List Name} (hxs : List.Forall₂ T.name xs₁ xs₂)
    {vs₁ vs₂ : List Value} (hvs : List.Forall₂ T.SameValue vs₁ vs₂) :
    T.Lockstep (fun _ _ => True) s₁ s₂ (it₁.declareParams b₁ xs₁ vs₁)
      (it₂.declareParams b₂ xs₂ vs₂) := by
  induction hxs generalizing s₁ s₂ vs₁ vs₂ with
  | nil => exact .pure h trivial
  | cons hx _ ih =>
    cases hvs with
    | nil => exact .pure h trivial
    | cons hv hvs =>
      exact (declareIn_lockstep same h hb hx hv).bind fun _ _ t₁ t₂ holds _ _ => ih holds hvs

theorem checkLimit_lockstep (same : T.SameCaller it₁ it₂) (h : T.Holds s₁ s₂) :
    T.Lockstep (fun _ _ => True) s₁ s₂ it₁.checkLimit it₂.checkLimit := by
  unfold Interpreter.checkLimit
  rw [same.limit, same.depth]
  split
  · split
    · exact .throw h trivial
    · exact .pure h trivial
  · exact .pure h trivial

end Steps

/-! ### Expressions -/

/-- The evaluator stays side by side with itself on expressions that the arenas share. -/
def InStep (T : Translation) (ev : Interpreter → NodeId → EvalM Value) : Prop :=
  ∀ {it₁ it₂ : Interpreter} {id : NodeId} {s₁ s₂ : Store}, T.SameScope it₁ it₂ →
    T.expr it₁.code it₂.code id → T.Holds s₁ s₂ →
    T.Lockstep T.SameValue s₁ s₂ (ev it₁ id) (ev it₂ id)

namespace InStep

variable {ev : Interpreter → NodeId → EvalM Value} {it₁ it₂ : Interpreter}

theorem apply (hev : T.InStep ev) (same : T.SameCaller it₁ it₂) (h : T.Holds s₁ s₂)
    {c₁ c₂ : Closure} (hc : T.SameClosure c₁ c₂) {vs₁ vs₂ : List Value}
    (hvs : List.Forall₂ T.SameValue vs₁ vs₂) :
    T.Lockstep T.SameValue s₁ s₂ (it₁.apply ev c₁ vs₁) (it₂.apply ev c₂ vs₂) := by
  unfold Interpreter.apply
  rw [Closure.arity, Closure.arity, hvs.length_eq, hc.params.length_eq]
  split
  · refine (checkLimit_lockstep same h).bind fun _ _ t₁ t₂ holds _ _ => ?_
    refine (Lockstep.child holds hc.env).bind fun b₁ b₂ u₁ u₂ holds' _ hb => ?_
    refine (declareParams_lockstep same holds' hb hc.params hvs).bind
      fun _ _ w₁ w₂ holds'' _ _ => ?_
    have same' : T.SameScope (it₁.enter c₁ b₁) (it₂.enter c₂ b₂) :=
      ⟨⟨same.names₁, same.names₂, same.limit, congrArg (· + 1) same.depth⟩, hb⟩
    rw [← hc.body]
    exact hev same' hc.expr holds''
  · exact .throw h trivial

/-- Arguments are evaluated from left to right. -/
theorem mapM (hev : T.InStep ev) (same : T.SameScope it₁ it₂) (h : T.Holds s₁ s₂)
    {ids : List NodeId} (hids : ∀ i ∈ ids, T.expr it₁.code it₂.code i) :
    T.Lockstep (List.Forall₂ T.SameValue) s₁ s₂ (ids.mapM (ev it₁)) (ids.mapM (ev it₂)) := by
  induction ids generalizing s₁ s₂ with
  | nil => exact .pure h .nil
  | cons i ids ih =>
    rw [List.mapM_cons, List.mapM_cons]
    rw [List.forall_mem_cons] at hids
    refine (hev same hids.1 h).bind fun v₁ v₂ t₁ t₂ holds _ hv => ?_
    refine (ih holds hids.2).bind fun vs₁ vs₂ u₁ u₂ holds' _ hvs => ?_
    exact .pure holds' (.cons hv hvs)

theorem iterate (hev : T.InStep ev) (same : T.SameScope it₁ it₂) (h : T.Holds s₁ s₂)
    {test body : NodeId} (htest : T.expr it₁.code it₂.code test)
    (hbody : T.expr it₁.code it₂.code body) (n : Nat) :
    T.Lockstep T.SameValue s₁ s₂ (Interpreter.iterate (ev it₁ test) (ev it₁ body) n)
      (Interpreter.iterate (ev it₂ test) (ev it₂ body) n) := by
  induction n generalizing s₁ s₂ with
  | zero => exact .throw h trivial
  | succ n ih =>
    rw [Interpreter.iterate, Interpreter.iterate]
    refine (hev same htest h).bind fun v₁ v₂ t₁ t₂ holds _ hv => ?_
    cases hv with
    | @bool b =>
      cases b with
      | true => exact (hev same hbody holds).bind fun _ _ u₁ u₂ holds' _ _ => ih holds'
      | false => exact .pure holds .null
    | _ => exact .throw holds trivial

section Nodes

variable {id : NodeId} (same : T.SameScope it₁ it₂) (h : T.Holds s₁ s₂)
  (hexpr : T.expr it₁.code it₂.code id)

include same h hexpr

theorem function_lockstep {span : Span} {body : NodeId}
    (hold : it₁.code.arena.Holds id (.function span body)) (n : Nat) :
    T.Lockstep T.SameValue s₁ s₂ (it₁.evalNode ev n (.function span body))
      (it₂.evalNode ev n (.function span body)) := by
  obtain ⟨xs₁, xs₂, hxs₁, hxs₂, hxs⟩ := T.parameters hexpr hold
  have hbody := T.child hexpr hold (j := body) (by simp [Arena.children])
  simp only [Interpreter.evalNode, hxs₁, hxs₂, EvalM.ofLookup, pure_bind]
  have hmake : T.Lockstep T.SameClosure s₁ s₂
      (EvalM.onStore (·.newClosure xs₁ body it₁.env it₁.code))
      (EvalM.onStore (·.newClosure xs₂ body it₂.env it₂.code)) :=
    .onStore (h.newClosure xs₁ xs₂ body _ _ _ _) (.newClosure xs₁ xs₂ body _ _ _ _)
      ⟨h.nextClosure 0, hxs, rfl, hbody, same.env⟩
  exact hmake.bind fun c₁ c₂ t₁ t₂ holds _ hc => .pure holds (.closure hc)

theorem call (hev : T.InStep ev) {f : NodeId} {span : Span}
    (hold : it₁.code.arena.Holds id (.call f span)) (n : Nat) :
    T.Lockstep T.SameValue s₁ s₂ (it₁.evalNode ev n (.call f span))
      (it₂.evalNode ev n (.call f span)) := by
  obtain ⟨ids, hids₁, hids₂⟩ := T.arguments hexpr hold
  have hpart : ∀ j ∈ f :: ids, T.expr it₁.code it₂.code j :=
    fun j hj => T.child hexpr hold (by simpa [Arena.children, hids₁] using hj)
  rw [List.forall_mem_cons] at hpart
  simp only [Interpreter.evalNode, hids₁, hids₂, EvalM.ofLookup, pure_bind]
  refine (hev same hpart.1 h).bind fun v₁ v₂ t₁ t₂ holds _ hv => ?_
  cases hv with
  | closure hc =>
    refine (hev.mapM same holds hpart.2).bind fun vs₁ vs₂ u₁ u₂ holds' _ hvs => ?_
    exact hev.apply same.toSameCaller holds' hc hvs
  | _ => exact .throw holds trivial

theorem evalNode (hev : T.InStep ev) {node₁ node₂ : Node} (hold : it₁.code.arena.Holds id node₁)
    (alike : node₁.Alike T.name node₂) (n : Nat) :
    T.Lockstep T.SameValue s₁ s₂ (it₁.evalNode ev n node₁) (it₂.evalNode ev n node₂) := by
  have hpart : ∀ j ∈ it₁.code.arena.children node₁, T.expr it₁.code it₂.code j :=
    fun j hj => T.child hexpr hold hj
  cases alike with
  | ident hx => exact lookup_lockstep same h hx
  | @declare x₁ x₂ e hx =>
    refine (hev same (hpart e (by simp [Arena.children])) h).bind fun v₁ v₂ t₁ t₂ holds _ hv => ?_
    refine (declareIn_lockstep same.toSameCaller holds same.env hx hv).bind
      fun _ _ u₁ u₂ holds' _ _ => ?_
    exact lookup_lockstep same holds' hx
  | @assign x₁ x₂ e hx =>
    refine (hev same (hpart e (by simp [Arena.children])) h).bind fun v₁ v₂ t₁ t₂ holds _ hv => ?_
    have hupdate := holds.update same.env hx hv
    have hassign : T.Lockstep (fun _ _ => True) t₁ t₂ (EvalM.onStore (·.update it₁.env x₁ v₁))
        (EvalM.onStore (·.update it₂.env x₂ v₂)) := .onStore hupdate.1 hupdate.2 trivial
    exact hassign.bind fun _ _ u₁ u₂ holds' _ _ => lookup_lockstep same holds' hx
  | nameless hname =>
    cases node₁ with
    | ident _ | declare _ _ | assign _ _ => cases hname
    | int i | bool i | null => exact .pure h (.of_data rfl)
    | print e =>
      refine (hev same (hpart e (by simp [Arena.children])) h).bind
        fun v₁ v₂ t₁ t₂ holds _ hv => ?_
      rw [hv.display]
      exact (Lockstep.writeLine holds _).bind fun _ _ u₁ u₂ holds' _ _ => .pure holds' hv
    | binary op l r =>
      refine (hev same (hpart l (by simp [Arena.children])) h).bind
        fun v₁ v₂ t₁ t₂ holds _ hv => ?_
      refine (hev same (hpart r (by simp [Arena.children])) holds).bind
        fun w₁ w₂ u₁ u₂ holds' _ hw => ?_
      exact .binary holds' op hv hw
    | cond c t e =>
      refine (hev same (hpart c (by simp [Arena.children])) h).bind
        fun v₁ v₂ t₁ t₂ holds _ hv => ?_
      cases hv with
      | @bool b =>
        cases b with
        | true => exact hev same (hpart t (by simp [Arena.children])) holds
        | false => exact hev same (hpart e (by simp [Arena.children])) holds
      | _ => exact .throw holds trivial
    | loop c b =>
      exact hev.iterate same h (hpart c (by simp [Arena.children]))
        (hpart b (by simp [Arena.children])) n
    | seq a b =>
      refine (hev same (hpart a (by simp [Arena.children])) h).bind fun _ _ t₁ t₂ holds _ _ => ?_
      exact hev same (hpart b (by simp [Arena.children])) holds
    | block e =>
      refine (Lockstep.child h same.env).bind fun b₁ b₂ t₁ t₂ holds _ hb => ?_
      have same' : T.SameScope { it₁ with env := b₁ } { it₂ with env := b₂ } :=
        ⟨⟨same.names₁, same.names₂, same.limit, same.depth⟩, hb⟩
      exact hev same' (hpart e (by simp [Arena.children])) holds
    | function span body => exact function_lockstep same h hexpr hold n
    | call f span => exact call same h hexpr hev hold n

end Nodes

end InStep

/-- The evaluator stays side by side with itself, whatever the fuel. -/
theorem evalWith_inStep (T : Translation) (n : Nat) : T.InStep (Interpreter.evalWith n) := by
  induction n with
  | zero => exact fun _ _ h => .throw h trivial
  | succ n ih =>
    intro it₁ it₂ id s₁ s₂ same hexpr h
    rw [Interpreter.evalWith_succ, Interpreter.evalWith_succ]
    unfold Interpreter.evalStep
    split
    next present =>
      obtain ⟨node₁, node₂, hold₁, hold₂, alike⟩ := T.node hexpr present
      simp only [hold₁.stored, hold₂.stored, EvalM.ofLookup, pure_bind]
      exact InStep.evalNode same h hexpr ih hold₁ alike n
    · exact .pure h .null

theorem callWith_lockstep (T : Translation) (n : Nat) {it₁ it₂ : Interpreter}
    (same : T.SameCaller it₁ it₂) (h : T.Holds s₁ s₂) {f₁ f₂ : Value} (hf : T.SameValue f₁ f₂)
    {vs₁ vs₂ : List Value} (hvs : List.Forall₂ T.SameValue vs₁ vs₂) :
    T.Lockstep T.SameValue s₁ s₂ (it₁.callWith n f₁ vs₁) (it₂.callWith n f₂ vs₂) := by
  have hev : T.InStep (Interpreter.evalWith n) := evalWith_inStep T n
  cases hf with
  | closure hc => exact hev.apply same h hc hvs
  | _ => exact .throw h trivial

/-- Evaluations of a shared expression in related stores end alike. -/
theorem Holds.endAlike {it₁ it₂ : Interpreter} {id : NodeId} (h : T.Holds s₁ s₂)
    (same : T.SameScope it₁ it₂) (hexpr : T.expr it₁.code it₂.code id) (k₁ k₂ : Sink) :
    EndAlike (T.Together T.SameValue s₁ s₂ k₁ k₂) (it₁.Ends id ⟨s₁, k₁⟩) (it₂.Ends id ⟨s₂, k₂⟩) :=
  EvalM.Ends.alike (fun h => Interpreter.evalWith_below h it₁ id)
    (fun h => Interpreter.evalWith_below h it₂ id)
    (fun n => evalWith_inStep T n same hexpr h k₁ k₂) fun _ _ together => together.finished

end Translation

end Treewalk
