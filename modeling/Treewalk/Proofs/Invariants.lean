import Treewalk.Proofs.Ending
import Treewalk.Proofs.Foundedness
import Treewalk.Proofs.Scopes

/-! Invariants of evaluation. What is said of a store, of the values that occur and of the
expressions that are about to be evaluated may refer to a world: what is known so far of the objects
of the store, which only grows. Whatever each small step keeps, every evaluation and every call
keeps, however it ends. -/

namespace Treewalk

/-- Statements about stores, values and expressions in a world, with the proof that each small step
of evaluation keeps them. -/
structure Invariant (W : Type) where
  Le : W → W → Prop
  Holds : W → Store → Prop
  Knows : W → Value → Prop
  Runs : W → Interpreter → NodeId → Prop
  refl (w) : Le w w
  trans {w₁ w₂ w₃} : Le w₁ w₂ → Le w₂ w₃ → Le w₁ w₃
  knows_mono {w w' v} : Le w w' → Knows w v → Knows w' v
  runs_mono {w w' it id} : Le w w' → Runs w it id → Runs w' it id
  /-- Nothing is said of values other than closures. -/
  data {w v} : v.closure? = none → Knows w v
  bound {w s e x v} : Holds w s → s.local? e x = some v → Knows w v
  part {w it id node j} : Runs w it id → it.code.arena.Holds id node →
    j ∈ it.code.arena.parts node → Runs w it j
  block {w s it id e} : Holds w s → Runs w it id → it.code.arena.Holds id (.block e) →
    ∃ w', Le w w' ∧ Holds w' (s.child it.env).2 ∧ Runs w' { it with env := s.scopes.size } e
  declare {w s it id x e v} : Holds w s → Runs w it id → it.code.arena.Holds id (.declare x e) →
    Knows w v → Holds w (s.bind it.env x v)
  assign {w s it id x e v} : Holds w s → Runs w it id → it.code.arena.Holds id (.assign x e) →
    Knows w v → Holds w (s.update it.env x v).2
  function {w s it id span body params} : Holds w s → Runs w it id →
    it.code.arena.Holds id (.function span body) → it.code.arena.parameters? span = some params →
    ∃ w', Le w w' ∧ Holds w' (s.newClosure params body it.env it.code).2 ∧
      Knows w' (.closure (s.newClosure params body it.env it.code).1)
  /-- A call opens a scope in which its parameters can be bound and its body can run. -/
  enter {w s c} (it : Interpreter) : Holds w s → Knows w (.closure c) →
    ∃ w', Le w w' ∧ Holds w' (s.child c.env).2 ∧ Runs w' (it.enter c s.scopes.size) c.body ∧
      ∀ w'' t x v, Le w' w'' → Holds w'' t → x ∈ c.params → Knows w'' v →
        Holds w'' (t.bind s.scopes.size x v)

/-- What is resolved is the value of the name in some scope. -/
theorem Store.exists_local?_of_resolve {s : Store} {e : ScopeId} {x : Name} {v : Value}
    (h : s.resolve e x = some v) : ∃ b, s.local? b x = some v := by
  rw [resolve_eq_findSome?] at h
  obtain ⟨b, _, hb⟩ := List.exists_of_findSome?_eq_some h
  exact ⟨b, hb⟩

/-- The scope that is found to bind a name binds it. -/
theorem Store.bindsLocally_of_binder? {s : Store} {e b : ScopeId} {x : Name}
    (h : s.binder? x e = some b) : s.bindsLocally b x = true := by
  rw [binder?_eq_find?] at h
  exact List.find?_some (p := (s.bindsLocally · x)) h

theorem Operator.closure?_applyInt {op : Operator} {a b : Int64} {v : Value}
    (h : op.applyInt a b = .ok v) : v.closure? = none := by
  cases op with
  | div | mod =>
    simp only [applyInt] at h
    split at h
    · cases h
    · cases h
      rfl
  | _ =>
    cases h
    rfl

/-- Operators do not give closures. -/
theorem Operator.closure?_apply {op : Operator} {l r v : Value} (h : op.apply l r = .ok v) :
    v.closure? = none := by
  unfold apply at h
  split at h
  · cases h
    rfl
  · split at h
    · split at h
      · exact closure?_applyInt h
      · cases h
    · cases h

/-- An operator never fails because of a declaration. -/
theorem Operator.ne_duplicateDeclaration {op : Operator} {l r : Value} {cause : EvalError}
    (h : op.apply l r = .error cause) (p : String) : cause ≠ .duplicateDeclaration p := by
  rintro rfl
  unfold apply at h
  split at h
  · cases h
  · split at h
    · split at h
      · cases op <;> simp only [applyInt, reduceCtorEq] at h <;> split at h <;> cases h
      · cases h
    · cases h

namespace Interpreter

/-- What a call does before its body runs: it gives the new scope, which holds the arguments. -/
def openCall (it : Interpreter) (c : Closure) (args : List Value) : EvalM ScopeId := do
  if args.length = c.arity then
    it.checkLimit
    let scope ← EvalM.onStore (·.child c.env)
    it.declareParams scope c.params args
    pure scope
  else EvalM.fail (.arityMismatch c.arity args.length)

/-- A call opens a scope and evaluates its body there. -/
theorem apply_eq_openCall (ev : Interpreter → NodeId → EvalM Value) (it : Interpreter) (c : Closure)
    (args : List Value) :
    it.apply ev c args = it.openCall c args >>= fun scope => ev (it.enter c scope) c.body := by
  unfold apply openCall
  split
  · simp only [bind_assoc, pure_bind]
  · rfl

end Interpreter

namespace Invariant

variable {W : Type} {α β : Type}

/-- From the store `s` in the world `w`, and whatever was printed before, the computation leaves a
store in which the invariant holds, and a result with `Q`, in a later world. -/
def Keeps (I : Invariant W) (w : W) (s : Store) (m : EvalM α) (Q : W → α → Prop) : Prop :=
  ∀ k, ∃ w', I.Le w w' ∧ I.Holds w' (Outcome.state (m ⟨s, k⟩)).store ∧
    ∀ a t, m ⟨s, k⟩ = .ok a t → Q w' a

variable {I : Invariant W} {w w' : W} {s : Store}

namespace Keeps

variable {Q Q' : W → α → Prop} {R : W → β → Prop} {m : EvalM α}

theorem pure {a : α} (h : I.Holds w s) (hQ : Q w a) : I.Keeps w s (pure a) Q := by
  intro k
  refine ⟨w, I.refl w, h, ?_⟩
  rintro _ _ ⟨⟩
  exact hQ

theorem throw {cause : Halt} (h : I.Holds w s) : I.Keeps w s (throw cause : EvalM α) Q := by
  intro k
  refine ⟨w, I.refl w, h, ?_⟩
  rintro _ _ ⟨⟩

theorem bind {f : α → EvalM β} (h : I.Keeps w s m Q)
    (hf : ∀ w' t a, I.Le w w' → I.Holds w' t → Q w' a → I.Keeps w' t (f a) R) :
    I.Keeps w s (m >>= f) R := by
  intro k
  obtain ⟨w₁, hle, hholds, hQ⟩ := h k
  simp only [Bind.bind, EStateM.bind]
  generalize m ⟨s, k⟩ = r at hholds hQ
  cases r with
  | ok a t =>
    obtain ⟨w₂, hle', hholds', hR⟩ := hf w₁ t.store a hle hholds (hQ a t rfl) t.sink
    exact ⟨w₂, I.trans hle hle', hholds', hR⟩
  | error cause t =>
    refine ⟨w₁, hle, hholds, ?_⟩
    rintro _ _ ⟨⟩

/-- A first world in which the computation keeps the invariant can be forgotten. -/
theorem of_le (h : I.Keeps w' s m Q) (hle : I.Le w w') : I.Keeps w s m Q := by
  intro k
  obtain ⟨w'', hle', hrest⟩ := h k
  exact ⟨w'', I.trans hle hle', hrest⟩

theorem onStore {f : Store → α × Store} (h : I.Holds w (f s).2) (hQ : Q w (f s).1) :
    I.Keeps w s (EvalM.onStore f) Q := by
  intro k
  refine ⟨w, I.refl w, h, ?_⟩
  rintro _ _ ⟨⟩
  exact hQ

theorem ofLookup (h : I.Holds w s) (o : Option α) :
    I.Keeps w s (EvalM.ofLookup o) fun _ a => o = some a := by
  cases o with
  | some a => exact pure h rfl
  | none => exact throw h

theorem ofExcept {x : Except EvalError α} (h : I.Holds w s) (hx : ∀ a, x = .ok a → Q w a) :
    I.Keeps w s (EvalM.ofExcept x) Q := by
  cases x with
  | ok a => exact pure h (hx a rfl)
  | error cause => exact throw h

theorem writeLine (h : I.Holds w s) (line : String) :
    I.Keeps w s (EvalM.writeLine line) fun _ _ => True := by
  intro k
  exact ⟨w, I.refl w, h, fun _ _ _ => trivial⟩

theorem lookup (h : I.Holds w s) (it : Interpreter) (x : Name) :
    I.Keeps w s (it.lookup x) I.Knows := by
  intro k
  refine ⟨w, I.refl w, h, ?_⟩
  rintro _ _ ⟨⟩
  show I.Knows w ((s.resolve it.env x).getD .null)
  cases hv : s.resolve it.env x with
  | some v =>
    obtain ⟨b, hb⟩ := Store.exists_local?_of_resolve hv
    exact I.bound h hb
  | none => exact I.data rfl

theorem declareIn (h : I.Holds w s) (it : Interpreter) {e : ScopeId} {x : Name} {v : Value}
    (hbind : I.Holds w (s.bind e x v)) :
    I.Keeps w s (it.declareIn e x v) fun _ _ => True := by
  have hdeclare : I.Keeps w s (EvalM.onStore (·.declare e x v)) fun _ _ => True := by
    refine onStore ?_ trivial
    unfold Store.declare
    split
    · exact h
    · exact hbind
  refine hdeclare.bind fun w' t outcome _ holds _ => ?_
  cases outcome with
  | declared => exact pure holds trivial
  | duplicate => exact throw holds

theorem declareParams (h : I.Holds w s) (it : Interpreter) {e : ScopeId} {xs : List Name}
    {vs : List Value} (hvs : ∀ v ∈ vs, I.Knows w v)
    (hbind : ∀ w' t x v, I.Le w w' → I.Holds w' t → x ∈ xs → I.Knows w' v →
      I.Holds w' (t.bind e x v)) :
    I.Keeps w s (it.declareParams e xs vs) fun _ _ => True := by
  induction xs generalizing w s vs with
  | nil => exact pure h trivial
  | cons x xs ih =>
    cases vs with
    | nil => exact pure h trivial
    | cons v vs =>
      rw [List.forall_mem_cons] at hvs
      have hfirst := hbind w s x v (I.refl w) h List.mem_cons_self hvs.1
      refine (declareIn h it hfirst).bind fun w' t _ hle holds _ => ?_
      refine ih holds (fun v hv => I.knows_mono hle (hvs.2 v hv)) ?_
      intro w'' u y v' hle' holds' hy
      exact hbind w'' u y v' (I.trans hle hle') holds' (List.mem_cons_of_mem x hy)

/-- In the scope that a call opens its body may run. -/
theorem openCall (h : I.Holds w s) (it : Interpreter) {c : Closure} (hc : I.Knows w (.closure c))
    {args : List Value} (hargs : ∀ v ∈ args, I.Knows w v) :
    I.Keeps w s (it.openCall c args) fun w' scope => I.Runs w' (it.enter c scope) c.body := by
  unfold Interpreter.openCall
  split
  · have hcheck : I.Keeps w s it.checkLimit fun _ _ => True := by
      unfold Interpreter.checkLimit
      split
      · split
        · exact throw h
        · exact pure h trivial
      · exact pure h trivial
    refine hcheck.bind fun w₁ t _ hle₁ holds₁ _ => ?_
    obtain ⟨w₂, hle₂, holds₂, hruns, hbind⟩ := I.enter it holds₁ (I.knows_mono hle₁ hc)
    have hchild : I.Keeps w₂ t (EvalM.onStore (·.child c.env)) fun _ e => e = t.scopes.size :=
      onStore holds₂ rfl
    refine (hchild.bind fun w₃ u e hle₃ holds₃ he => ?_).of_le hle₂
    subst he
    have hle : I.Le w w₃ := I.trans hle₁ (I.trans hle₂ hle₃)
    have hparams : I.Keeps w₃ u (it.declareParams t.scopes.size c.params args) fun _ _ => True :=
      declareParams holds₃ it (fun v hv => I.knows_mono hle (hargs v hv))
        fun w' t' x v hle' => hbind w' t' x v (I.trans hle₃ hle')
    refine hparams.bind fun w₄ t' _ hle₄ holds₄ _ => ?_
    exact pure holds₄ (I.runs_mono (I.trans hle₃ hle₄) hruns)
  · exact throw h

end Keeps

/-! ### Expressions -/

/-- The evaluator keeps the invariant wherever it may run. -/
def Evaluates (I : Invariant W) (ev : Interpreter → NodeId → EvalM Value) : Prop :=
  ∀ {w s it id}, I.Holds w s → I.Runs w it id → I.Keeps w s (ev it id) I.Knows

namespace Evaluates

variable {ev : Interpreter → NodeId → EvalM Value} {it : Interpreter} {id : NodeId}

theorem apply (hev : I.Evaluates ev) (it : Interpreter) (h : I.Holds w s) {c : Closure}
    (hc : I.Knows w (.closure c)) {args : List Value} (hargs : ∀ v ∈ args, I.Knows w v) :
    I.Keeps w s (it.apply ev c args) I.Knows := by
  rw [Interpreter.apply_eq_openCall]
  exact (Keeps.openCall h it hc hargs).bind fun _ _ _ _ holds hruns => hev holds hruns

/-- Arguments are evaluated from left to right. -/
theorem mapM (hev : I.Evaluates ev) (h : I.Holds w s) {ids : List NodeId}
    (hruns : ∀ i ∈ ids, I.Runs w it i) :
    I.Keeps w s (ids.mapM (ev it)) fun w' vs => ∀ v ∈ vs, I.Knows w' v := by
  induction ids generalizing w s with
  | nil => exact .pure h (by simp)
  | cons i ids ih =>
    rw [List.mapM_cons]
    rw [List.forall_mem_cons] at hruns
    refine (hev h hruns.1).bind fun w₁ t v hle₁ holds₁ hv => ?_
    refine (ih holds₁ fun j hj => I.runs_mono hle₁ (hruns.2 j hj)).bind
      fun w₂ u vs hle₂ holds₂ hvs => .pure holds₂ ?_
    rw [List.forall_mem_cons]
    exact ⟨I.knows_mono hle₂ hv, hvs⟩

theorem iterate (hev : I.Evaluates ev) (h : I.Holds w s) {test body : NodeId}
    (htest : I.Runs w it test) (hbody : I.Runs w it body) (n : Nat) :
    I.Keeps w s (Interpreter.iterate (ev it test) (ev it body) n) I.Knows := by
  induction n generalizing w s with
  | zero => exact .throw h
  | succ n ih =>
    rw [Interpreter.iterate]
    refine (hev h htest).bind fun w₁ t v hle₁ holds₁ _ => ?_
    split
    · refine (hev holds₁ (I.runs_mono hle₁ hbody)).bind fun w₂ u _ hle₂ holds₂ _ => ?_
      have hle := I.trans hle₁ hle₂
      exact ih holds₂ (I.runs_mono hle htest) (I.runs_mono hle hbody)
    · exact .pure holds₁ (I.data rfl)
    · exact .throw holds₁

theorem evalNode (hev : I.Evaluates ev) (n : Nat) (h : I.Holds w s) (hruns : I.Runs w it id)
    {node : Node} (hold : it.code.arena.Holds id node) :
    I.Keeps w s (it.evalNode ev n node) I.Knows := by
  have hpart : ∀ {w'}, I.Le w w' → ∀ j ∈ it.code.arena.parts node, I.Runs w' it j :=
    fun hle j hj => I.runs_mono hle (I.part hruns hold hj)
  cases node with
  | int i | bool i => exact .pure h (I.data rfl)
  | null => exact .pure h (I.data rfl)
  | ident x => exact .lookup h it x
  | print e =>
    refine (hev h (hpart (I.refl w) e (by simp))).bind fun w₁ t v hle₁ holds₁ hv => ?_
    refine (Keeps.writeLine holds₁ _).bind fun w₂ u _ hle₂ holds₂ _ => ?_
    exact .pure holds₂ (I.knows_mono hle₂ hv)
  | binary op l r =>
    refine (hev h (hpart (I.refl w) l (by simp))).bind fun w₁ t v hle₁ holds₁ hv => ?_
    refine (hev holds₁ (hpart hle₁ r (by simp))).bind fun w₂ u v' hle₂ holds₂ hv' => ?_
    exact .ofExcept holds₂ fun a ha => I.data (Operator.closure?_apply ha)
  | cond c t e =>
    refine (hev h (hpart (I.refl w) c (by simp))).bind fun w₁ t v hle₁ holds₁ hv => ?_
    split
    · exact hev holds₁ (hpart hle₁ _ (by simp))
    · exact hev holds₁ (hpart hle₁ _ (by simp))
    · exact .throw holds₁
  | loop c b =>
    exact hev.iterate h (hpart (I.refl w) c (by simp)) (hpart (I.refl w) b (by simp)) n
  | seq a b =>
    refine (hev h (hpart (I.refl w) a (by simp))).bind fun w₁ t v hle₁ holds₁ hv => ?_
    exact hev holds₁ (hpart hle₁ b (by simp))
  | block e =>
    obtain ⟨w₁, hle₁, holds₁, hruns₁⟩ := I.block h hruns hold
    have hchild : I.Keeps w₁ s (EvalM.onStore (·.child it.env)) fun _ e => e = s.scopes.size :=
      .onStore holds₁ rfl
    refine (hchild.bind fun w₂ t e hle₂ holds₂ he => ?_).of_le hle₁
    subst he
    exact hev holds₂ (I.runs_mono hle₂ hruns₁)
  | declare x e =>
    refine (hev h (hpart (I.refl w) e (by simp))).bind fun w₁ t v hle₁ holds₁ hv => ?_
    have hbind := I.declare holds₁ (I.runs_mono hle₁ hruns) hold hv
    refine (Keeps.declareIn holds₁ it hbind).bind fun w₂ u _ hle₂ holds₂ _ => ?_
    exact .lookup holds₂ it x
  | assign x e =>
    refine (hev h (hpart (I.refl w) e (by simp))).bind fun w₁ t v hle₁ holds₁ hv => ?_
    have hupdate : I.Keeps w₁ t (EvalM.onStore (·.update it.env x v)) fun _ _ => True :=
      .onStore (I.assign holds₁ (I.runs_mono hle₁ hruns) hold hv) trivial
    refine hupdate.bind fun w₂ u _ hle₂ holds₂ _ => ?_
    exact .lookup holds₂ it x
  | function span body =>
    refine (Keeps.ofLookup h (it.code.arena.parameters? span)).bind
      fun w₁ t params hle₁ holds₁ hparams => ?_
    obtain ⟨w₂, hle₂, holds₂, hknows⟩ :=
      I.function holds₁ (I.runs_mono hle₁ hruns) hold hparams
    have hmake : I.Keeps w₂ t (EvalM.onStore (·.newClosure params body it.env it.code))
        fun w c => I.Knows w (.closure c) := .onStore holds₂ hknows
    exact (hmake.bind fun w₃ u c hle₃ holds₃ hc => .pure holds₃ hc).of_le hle₂
  | call f span =>
    refine (hev h (hpart (I.refl w) f (by simp))).bind fun w₁ t v hle₁ holds₁ hv => ?_
    split
    next c =>
      refine (Keeps.ofLookup holds₁ (it.code.arena.arguments? span)).bind
        fun w₂ u ids hle₂ holds₂ hids => ?_
      have hargs : ∀ i ∈ ids, I.Runs w₂ it i := by
        intro i hi
        exact hpart (I.trans hle₁ hle₂) i (by simp [hids, hi])
      refine (hev.mapM holds₂ hargs).bind fun w₃ u' vs hle₃ holds₃ hvs => ?_
      exact hev.apply it holds₃ (I.knows_mono (I.trans hle₂ hle₃) hv) hvs
    · exact .throw holds₁

end Evaluates

/-- What each small step keeps, evaluation keeps with any fuel. -/
theorem evaluates_evalWith (I : Invariant W) (n : Nat) : I.Evaluates (Interpreter.evalWith n) := by
  induction n with
  | zero =>
    intro w s it id h _
    exact .throw h
  | succ n ih =>
    intro w s it id h hruns
    rw [Interpreter.evalWith_succ]
    unfold Interpreter.evalStep
    split
    next present =>
      refine (Keeps.ofLookup h (it.code.arena.node? id)).bind
        fun w₁ t node hle₁ holds₁ hnode => ?_
      exact Evaluates.evalNode ih n holds₁ (I.runs_mono hle₁ hruns) ⟨present, hnode⟩
    · exact .pure h (I.data rfl)

theorem keeps_callWith (I : Invariant W) (n : Nat) (it : Interpreter) (h : I.Holds w s) {f : Value}
    (hf : I.Knows w f) {args : List Value} (hargs : ∀ v ∈ args, I.Knows w v) :
    I.Keeps w s (it.callWith n f args) I.Knows := by
  cases f with
  | closure c => exact Evaluates.apply (I.evaluates_evalWith n) it h hf hargs
  | _ => exact .throw h

end Invariant

/-! ### Statements about closures -/

/-- If the value is a closure, it has `P`. -/
def Value.Meets (P : Closure → Prop) (v : Value) : Prop := ∀ c, v = .closure c → P c

/-- All closures that are bound in the store have `P`. -/
def Store.Meets (P : Closure → Prop) (s : Store) : Prop :=
  ∀ e x v, s.local? e x = some v → v.Meets P

section Meets

variable {P : Closure → Prop} {s : Store} {v : Value}

theorem Value.Meets.of_closure? (h : v.closure? = none) : v.Meets P := by
  rintro c rfl
  cases h

namespace Store.Meets

theorem empty : ({} : Store).Meets P := by
  intro e x v hv
  rw [local?, scope_empty] at hv
  cases hv

theorem global (h : s.Meets P) : s.global.2.Meets P := by
  intro e x v hv
  rw [local?, scope_global] at hv
  exact h e x v hv

theorem child (h : s.Meets P) (e : ScopeId) : (s.child e).2.Meets P := by
  intro e' x v hv
  rw [local?_alloc_child] at hv
  exact h e' x v hv

theorem bind (h : s.Meets P) (hv : v.Meets P) (e : ScopeId) (x : Name) :
    (s.bind e x v).Meets P := by
  intro e' y w hw
  rw [local?_bind] at hw
  split at hw
  · obtain rfl := Option.some.inj hw
    exact hv
  · exact h e' y w hw

theorem declare (h : s.Meets P) (hv : v.Meets P) (e : ScopeId) (x : Name) :
    (s.declare e x v).2.Meets P := by
  unfold Store.declare
  split
  · exact h
  · exact h.bind hv e x

theorem update (h : s.Meets P) (hv : v.Meets P) (e : ScopeId) (x : Name) :
    (s.update e x v).2.Meets P := by
  unfold Store.update
  split
  · exact h.bind hv _ x
  · exact h.bind hv _ x

theorem resolve (h : s.Meets P) {e : ScopeId} {x : Name} (hv : s.resolve e x = some v) :
    v.Meets P := by
  obtain ⟨b, hb⟩ := exists_local?_of_resolve hv
  exact h b x v hb

end Store.Meets

/-- What evaluation keeps if all that matters is that closures have `P`: expressions with `R` have
parts with `R`, literals among them give closures with `P`, and these have bodies with `R`. -/
def Invariant.ofClosures (P : Closure → Prop) (R : Code → NodeId → Prop)
    (child : ∀ {code id node j}, R code id → code.arena.Holds id node →
      j ∈ code.arena.children node → R code j)
    (literal : ∀ {code id span body params}, R code id → code.arena.Holds id (.function span body) →
      code.arena.parameters? span = some params → ∀ number env, P ⟨number, params, body, env, code⟩)
    (body : ∀ c, P c → R c.code c.body) : Invariant Unit where
  Le _ _ := True
  Holds _ s := s.Meets P
  Knows _ v := v.Meets P
  Runs _ it id := R it.code id
  refl _ := trivial
  trans _ _ := trivial
  knows_mono _ h := h
  runs_mono _ h := h
  data h := .of_closure? h
  bound h hv := h _ _ _ hv
  part h hold hj := child h hold (List.mem_append_left _ hj)
  block h hruns hold := ⟨(), trivial, h.child _, child hruns hold (List.mem_singleton_self _)⟩
  declare h _ _ hv := h.bind hv _ _
  assign h _ _ hv := h.update hv _ _
  function h hruns hold hparams := by
    refine ⟨(), trivial, h, ?_⟩
    rintro c ⟨⟩
    exact literal hruns hold hparams _ _
  enter _ h hc := by
    refine ⟨(), trivial, h.child _, body _ (hc _ rfl), ?_⟩
    intro _ t x v _ ht _ hv
    exact ht.bind hv _ x

end Meets

end Treewalk
