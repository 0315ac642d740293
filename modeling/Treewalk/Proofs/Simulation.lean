import Mathlib.Data.List.Forall2
import Treewalk.Proofs.Invariants
import Treewalk.Proofs.Relations

/-! Simulations: one run beside another that opens the same scopes and binds the same names. The
runs may use different arenas, number their closures differently, print different lines and be
inside different numbers of calls. Whatever each small step keeps, evaluations and calls keep: they
end alike, unless the first one stops for a cause that is excused. -/

namespace Treewalk

/-! ### Stores that differ in values only -/

/-- Scopes inside the same scope that bind the same names, in the same order, to values with `V`. -/
structure Scope.Alike (V : Value → Value → Prop) (a b : Scope) : Prop where
  parent : a.parent = b.parent
  bindings : List.Forall₂ (fun p q => p.1 = q.1 ∧ V p.2 q.2) a.bindings b.bindings

namespace Scope.Alike

variable {V W : Value → Value → Prop} {a b : Scope} {v w : Value}

theorem get? (h : a.Alike V b) (x : Name) : Option.Rel V (a.get? x) (b.get? x) := by
  have hbindings := h.bindings
  unfold Scope.get?
  generalize a.bindings = as, b.bindings = bs at hbindings
  induction hbindings with
  | nil => exact .none
  | @cons p q as bs hpq _ ih =>
    obtain ⟨y, v⟩ := p
    obtain ⟨z, w⟩ := q
    obtain ⟨rfl, hv⟩ : y = z ∧ V v w := hpq
    rw [List.lookup_cons, List.lookup_cons]
    split
    · exact .some hv
    · exact ih

theorem bind (h : a.Alike V b) (x : Name) (hv : V v w) : (a.bind x v).Alike V (b.bind x w) := by
  refine ⟨h.parent, ?_⟩
  have hbindings := h.bindings
  unfold Scope.bind
  generalize a.bindings = as, b.bindings = bs at hbindings
  induction hbindings with
  | nil => exact .cons ⟨rfl, hv⟩ .nil
  | @cons p q as bs hpq hrest ih =>
    obtain ⟨y, v'⟩ := p
    obtain ⟨z, w'⟩ := q
    obtain ⟨rfl, hv'⟩ : y = z ∧ V v' w' := hpq
    simp only [put]
    split
    · exact .cons ⟨rfl, hv⟩ hrest
    · exact .cons ⟨rfl, hv'⟩ ih

end Scope.Alike

/-- Stores with the same scopes, in which names have values with `V`. -/
structure Store.Alike (V : Value → Value → Prop) (s₁ s₂ : Store) : Prop where
  size : s₁.scopes.size = s₂.scopes.size
  scope : ∀ e, (s₁.scope e).Alike V (s₂.scope e)
  nextCode : s₁.nextCode = s₂.nextCode

namespace Store.Alike

variable {V W : Value → Value → Prop} {s₁ s₂ : Store} {v w : Value}

theorem local? (h : s₁.Alike V s₂) (e : ScopeId) (x : Name) :
    Option.Rel V (s₁.local? e x) (s₂.local? e x) :=
  (h.scope e).get? x

theorem bindsLocally_eq (h : s₁.Alike V s₂) (e : ScopeId) (x : Name) :
    s₁.bindsLocally e x = s₂.bindsLocally e x :=
  (h.local? e x).isSome_eq

theorem chain_eq (h : s₁.Alike V s₂) (e : ScopeId) : s₁.chain e = s₂.chain e := by
  induction e using Nat.strongRecOn with
  | _ e ih =>
    have houter : s₁.outer? e = s₂.outer? e := by
      unfold outer? parent
      rw [(h.scope e).parent]
    rw [chain, chain, houter]
    cases s₂.outer? e with
    | some p => simp only [ih p.1 p.2]
    | none => rfl

theorem root_eq (h : s₁.Alike V s₂) (e : ScopeId) : s₁.root e = s₂.root e := by
  have hlast := getLast?_chain s₁ e
  rw [h.chain_eq e, getLast?_chain] at hlast
  exact (Option.some.inj hlast).symm

theorem binder?_eq (h : s₁.Alike V s₂) (x : Name) (e : ScopeId) :
    s₁.binder? x e = s₂.binder? x e := by
  rw [binder?_eq_find?, binder?_eq_find?, h.chain_eq e]
  exact congrArg (List.find? · _) (funext fun b => h.bindsLocally_eq b x)

theorem resolve (h : s₁.Alike V s₂) (e : ScopeId) (x : Name) :
    Option.Rel V (s₁.resolve e x) (s₂.resolve e x) := by
  rw [resolve_eq_findSome?, resolve_eq_findSome?, h.chain_eq e]
  induction s₂.chain e with
  | nil => exact .none
  | cons b es ih =>
    rw [List.findSome?_cons, List.findSome?_cons]
    have hlocal := h.local? b x
    generalize s₁.local? b x = o₁, s₂.local? b x = o₂ at hlocal
    cases hlocal with
    | some hv => exact .some hv
    | none => exact ih

theorem bind (h : s₁.Alike V s₂) (b : ScopeId) (x : Name) (hv : V v w) :
    (s₁.bind b x v).Alike V (s₂.bind b x w) where
  size := by rw [size_bind, size_bind, h.size]
  scope e := by
    rw [scope_bind, scope_bind, h.size]
    split
    · exact (h.scope e).bind x hv
    · exact h.scope e
  nextCode := h.nextCode

theorem update (h : s₁.Alike V s₂) (e : ScopeId) (x : Name) (hv : V v w) :
    (s₁.update e x v).2.Alike V (s₂.update e x w).2 := by
  unfold Store.update
  rw [h.binder?_eq x e, h.root_eq e]
  split
  · exact h.bind _ x hv
  · exact h.bind _ x hv

theorem child (h : s₁.Alike V s₂) (e : ScopeId) : (s₁.child e).2.Alike V (s₂.child e).2 where
  size := by rw [Store.child, Store.child, size_alloc, size_alloc, h.size]
  scope e' := by
    rw [Store.child, Store.child, scope_alloc, scope_alloc, h.size]
    split
    · exact ⟨rfl, .nil⟩
    · exact h.scope e'
  nextCode := h.nextCode

theorem newClosure (h : s₁.Alike V s₂) (params : List Name) (body : NodeId) (e : ScopeId)
    (code₁ code₂ : Code) :
    (s₁.newClosure params body e code₁).2.Alike V (s₂.newClosure params body e code₂).2 :=
  ⟨h.size, h.scope, h.nextCode⟩

/-- Values that are bound in the second store may be known to have `W` more. -/
theorem mono (h : s₁.Alike V s₂)
    (hW : ∀ e x v w, (x, w) ∈ (s₂.scope e).bindings → V v w → W v w) : s₁.Alike W s₂ where
  size := h.size
  scope e := by
    refine ⟨(h.scope e).parent, ?_⟩
    have hbindings := (h.scope e).bindings
    have hbound := hW e
    generalize (s₁.scope e).bindings = as, (s₂.scope e).bindings = bs at hbindings hbound
    induction hbindings with
    | nil => exact .nil
    | cons hpq _ ih =>
      refine .cons ⟨hpq.1, hbound _ _ _ List.mem_cons_self hpq.2⟩ (ih fun x v w hw => ?_)
      exact hbound x v w (List.mem_cons_of_mem _ hw)
  nextCode := h.nextCode

end Store.Alike

/-- Closures that differ at most in their numbers and in the arenas that they carry. -/
structure Closure.Alike (number : Nat → Nat → Prop) (code : Code → Code → Prop)
    (c₁ c₂ : Closure) : Prop where
  id : number c₁.id c₂.id
  params : c₁.params = c₂.params
  body : c₁.body = c₂.body
  env : c₁.env = c₂.env
  code : code c₁.code c₂.code

/-! ### Simulations -/

/-- Nodes that do the same, unless one of them is a print of which only the operand is left. What
they print has to be allowed by `lines`. -/
inductive Node.Matches (lines : List String → List String → Prop) : Node → Node → Prop where
  | same {node : Node}
      (audible : ∀ e, node = .print e → ∀ v : Value, lines [v.display] [v.display]) :
      Matches lines node node
  | muted {e : NodeId} (silent : ∀ v : Value, lines [v.display] []) :
      Matches lines (.print e) (.seq .absent e)

/-- How two runs compare: which arenas and which numbers of closures stand for each other, which
lines the runs may print, for which causes the first run may stop when the second does not, and in
how many more calls the first run is. -/
structure Simulation where
  code : Code → Code → Prop
  number : Nat → Nat → Prop
  lines : List String → List String → Prop
  excused : Halt → Prop
  ahead : Nat
  number_iff {i₁ i₂ j₁ j₂} : number i₁ i₂ → number j₁ j₂ → (i₁ = j₁ ↔ i₂ = j₂)
  lines_nil : lines [] []
  lines_append {l₁ l₂ l₁' l₂'} : lines l₁ l₂ → lines l₁' l₂' → lines (l₁ ++ l₁') (l₂ ++ l₂')
  node {code₁ code₂} : code code₁ code₂ → ∀ id,
    excused .fault ∧ code₁.arena.node? id = none ∨
      Option.Rel (Node.Matches lines) (code₁.arena.node? id) (code₂.arena.node? id)
  arguments {code₁ code₂} : code code₁ code₂ → ∀ span,
    excused .fault ∧ code₁.arena.arguments? span = none ∨
      code₁.arena.arguments? span = code₂.arena.arguments? span
  parameters {code₁ code₂} : code code₁ code₂ → ∀ span,
    excused .fault ∧ code₁.arena.parameters? span = none ∨
      code₁.arena.parameters? span = code₂.arena.parameters? span
  overflow : ahead = 0 ∨ ∀ limit, excused (.error (.stackOverflow limit))

namespace Simulation

/-- Values that are equal, or closures that play the same part. -/
abbrev SameValue (S : Simulation) : Value → Value → Prop :=
  Value.Alike (Closure.Alike S.number S.code)

/-- The stores have the same scopes and corresponding values, and closures that come next correspond
in their order. -/
structure Holds (S : Simulation) (s₁ s₂ : Store) : Prop where
  stores : s₁.Alike S.SameValue s₂
  nextClosure : ∀ k, S.number (s₁.nextClosure + k) (s₂.nextClosure + k)

variable {S : Simulation} {s₁ s₂ : Store} {v₁ v₂ w₁ w₂ : Value}

namespace SameValue

theorem display (h : S.SameValue v₁ v₂) : v₁.display = v₂.display := by
  cases h with
  | closure h => rw [Value.display, Value.display, Closure.arity, Closure.arity, h.params]
  | _ => rfl

theorem same (h : S.SameValue v₁ v₂) (h' : S.SameValue w₁ w₂) : v₁.same w₁ = v₂.same w₂ := by
  cases h with
  | @closure c₁ c₂ h =>
    cases h' with
    | @closure d₁ d₂ h' =>
      show (c₁.id == d₁.id) = (c₂.id == d₂.id)
      rw [Bool.eq_iff_iff, beq_iff_eq, beq_iff_eq]
      exact S.number_iff h.id h'.id
    | _ => rfl
  | _ => cases h' <;> rfl

/-- Operators do not tell corresponding operands apart. -/
theorem apply_eq (op : Operator) (h : S.SameValue v₁ v₂) (h' : S.SameValue w₁ w₂) :
    op.apply v₁ w₁ = op.apply v₂ w₂ := by
  unfold Operator.apply
  split
  · rw [h.same h']
  · cases h with
    | int => cases h' <;> rfl
    | _ => rfl

end SameValue

namespace Holds

theorem bind (h : S.Holds s₁ s₂) (e : ScopeId) (x : Name) (hv : S.SameValue v₁ v₂) :
    S.Holds (s₁.bind e x v₁) (s₂.bind e x v₂) :=
  ⟨h.stores.bind e x hv, h.nextClosure⟩

theorem update (h : S.Holds s₁ s₂) (e : ScopeId) (x : Name) (hv : S.SameValue v₁ v₂) :
    S.Holds (s₁.update e x v₁).2 (s₂.update e x v₂).2 := by
  refine ⟨h.stores.update e x hv, ?_⟩
  unfold Store.update
  split <;> split <;> exact h.nextClosure

theorem child (h : S.Holds s₁ s₂) (e : ScopeId) : S.Holds (s₁.child e).2 (s₂.child e).2 :=
  ⟨h.stores.child e, h.nextClosure⟩

theorem newClosure (h : S.Holds s₁ s₂) (params : List Name) (body : NodeId) (e : ScopeId)
    (code₁ code₂ : Code) :
    S.Holds (s₁.newClosure params body e code₁).2 (s₂.newClosure params body e code₂).2 where
  stores := h.stores.newClosure params body e code₁ code₂
  nextClosure k := by
    have hnext := h.nextClosure (1 + k)
    rwa [← Nat.add_assoc, ← Nat.add_assoc] at hnext

end Holds

/-! ### Computations in step -/

section Computations

variable {α β α' β' : Type}

/-- Both computations gave results with `Q` or stopped for the same cause, and printed lines that
may stand beside each other; or the first one stopped for a cause that is excused. -/
inductive Together (S : Simulation) (Q : α → β → Prop) (k₁ k₂ : Sink) :
    Outcome α → Outcome β → Prop where
  | ok {a : α} {b : β} {t₁ t₂ : Store} (out₁ out₂ : List String) (holds : S.Holds t₁ t₂)
      (printed : S.lines out₁ out₂) (result : Q a b) :
      Together S Q k₁ k₂ (.ok a ⟨t₁, out₁.foldl Sink.writeLine k₁⟩)
        (.ok b ⟨t₂, out₂.foldl Sink.writeLine k₂⟩)
  | error {cause : Halt} {t₁ t₂ : Store} (out₁ out₂ : List String) (holds : S.Holds t₁ t₂)
      (printed : S.lines out₁ out₂) :
      Together S Q k₁ k₂ (.error cause ⟨t₁, out₁.foldl Sink.writeLine k₁⟩)
        (.error cause ⟨t₂, out₂.foldl Sink.writeLine k₂⟩)
  | excuse {cause : Halt} {s : State} {r : Outcome β} (excused : S.excused cause) :
      Together S Q k₁ k₂ (.error cause s) r

/-- From the stores `s₁` and `s₂`, the computations stay in step whatever was printed before. -/
def Lockstep (S : Simulation) (Q : α → β → Prop) (s₁ s₂ : Store) (m₁ : EvalM α) (m₂ : EvalM β) :
    Prop :=
  ∀ k₁ k₂, S.Together Q k₁ k₂ (m₁ ⟨s₁, k₁⟩) (m₂ ⟨s₂, k₂⟩)

namespace Lockstep

variable {Q : α → β → Prop} {R : α' → β' → Prop} {m₁ : EvalM α} {m₂ : EvalM β}

theorem pure {a : α} {b : β} (h : S.Holds s₁ s₂) (hab : Q a b) :
    S.Lockstep Q s₁ s₂ (pure a) (pure b) :=
  fun _ _ => .ok [] [] h S.lines_nil hab

theorem excuse {cause : Halt} (excused : S.excused cause) :
    S.Lockstep Q s₁ s₂ (throw cause) m₂ :=
  fun _ _ => .excuse excused

theorem throw (h : S.Holds s₁ s₂) (cause : Halt) :
    S.Lockstep Q s₁ s₂ (throw cause) (throw cause) :=
  fun _ _ => .error [] [] h S.lines_nil

theorem bind {f₁ : α → EvalM α'} {f₂ : β → EvalM β'} (h : S.Lockstep Q s₁ s₂ m₁ m₂)
    (hf : ∀ a b t₁ t₂, S.Holds t₁ t₂ → Q a b → S.Lockstep R t₁ t₂ (f₁ a) (f₂ b)) :
    S.Lockstep R s₁ s₂ (m₁ >>= f₁) (m₂ >>= f₂) := by
  intro k₁ k₂
  have hm := h k₁ k₂
  simp only [Bind.bind, EStateM.bind]
  generalize m₁ ⟨s₁, k₁⟩ = r₁, m₂ ⟨s₂, k₂⟩ = r₂ at hm
  cases hm with
  | @ok a b t₁ t₂ out₁ out₂ holds printed hab =>
    have hrest := hf a b t₁ t₂ holds hab (out₁.foldl Sink.writeLine k₁)
      (out₂.foldl Sink.writeLine k₂)
    simp only
    generalize f₁ a _ = r₁, f₂ b _ = r₂ at hrest
    cases hrest with
    | ok _ _ holds' printed' hab' =>
      rw [← List.foldl_append, ← List.foldl_append]
      exact .ok _ _ holds' (S.lines_append printed printed') hab'
    | error _ _ holds' printed' =>
      rw [← List.foldl_append, ← List.foldl_append]
      exact .error _ _ holds' (S.lines_append printed printed')
    | excuse excused => exact .excuse excused
  | error out₁ out₂ holds printed => exact .error out₁ out₂ holds printed
  | excuse excused => exact .excuse excused

theorem onStore {f₁ : Store → α × Store} {f₂ : Store → β × Store}
    (holds : S.Holds (f₁ s₁).2 (f₂ s₂).2) (result : Q (f₁ s₁).1 (f₂ s₂).1) :
    S.Lockstep Q s₁ s₂ (EvalM.onStore f₁) (EvalM.onStore f₂) :=
  fun _ _ => .ok [] [] holds S.lines_nil result

theorem ofLookup {o₁ : Option α} {o₂ : Option β} (h : S.Holds s₁ s₂)
    (hlookup : S.excused .fault ∧ o₁ = none ∨ Option.Rel Q o₁ o₂) :
    S.Lockstep Q s₁ s₂ (EvalM.ofLookup o₁) (EvalM.ofLookup o₂) := by
  rcases hlookup with ⟨excused, rfl⟩ | hrel
  · exact excuse excused
  · cases hrel with
    | some hab => exact pure h hab
    | none => exact throw h _

theorem child (h : S.Holds s₁ s₂) (e : ScopeId) :
    S.Lockstep Eq s₁ s₂ (EvalM.onStore (·.child e)) (EvalM.onStore (·.child e)) :=
  .onStore (h.child e) h.stores.size

theorem writeLine (h : S.Holds s₁ s₂) {line : String} (allowed : S.lines [line] [line]) :
    S.Lockstep (fun _ _ => True) s₁ s₂ (EvalM.writeLine line) (EvalM.writeLine line) :=
  fun _ _ => .ok [line] [line] h allowed trivial

/-- The first run prints a line that is left out in the second. -/
theorem writeLine_left (h : S.Holds s₁ s₂) {line : String} (allowed : S.lines [line] []) {b : β} :
    S.Lockstep (fun _ b' => b' = b) s₁ s₂ (EvalM.writeLine line) (Pure.pure b) :=
  fun _ _ => .ok [line] [] h allowed rfl

theorem binary (h : S.Holds s₁ s₂) (op : Operator) (hv : S.SameValue v₁ v₂)
    (hw : S.SameValue w₁ w₂) :
    S.Lockstep S.SameValue s₁ s₂ (EvalM.ofExcept (op.apply v₁ w₁))
      (EvalM.ofExcept (op.apply v₂ w₂)) := by
  rw [SameValue.apply_eq op hv hw]
  cases hop : op.apply v₂ w₂ with
  | ok v => exact pure h (.of_data (Operator.closure?_apply hop))
  | error cause => exact throw h _

end Lockstep

end Computations

/-! ### Scopes and calls -/

/-- The interpreters agree in all that a call takes from its caller. -/
structure SameCaller (S : Simulation) (it₁ it₂ : Interpreter) : Prop where
  names : it₁.names = it₂.names
  limit : it₁.limit = it₂.limit
  depth : it₁.depth = it₂.depth + S.ahead

/-- The interpreters also run in the same scope, over arenas that stand for each other. -/
structure SameScope (S : Simulation) (it₁ it₂ : Interpreter) : Prop extends
    S.SameCaller it₁ it₂ where
  env : it₁.env = it₂.env
  code : S.code it₁.code it₂.code

section Steps

variable {it₁ it₂ : Interpreter}

theorem lookup_lockstep (same : S.SameScope it₁ it₂) (h : S.Holds s₁ s₂) (x : Name) :
    S.Lockstep S.SameValue s₁ s₂ (it₁.lookup x) (it₂.lookup x) := by
  intro k₁ k₂
  refine .ok [] [] h S.lines_nil ?_
  rw [same.env]
  exact .getD (h.stores.resolve it₂.env x)

theorem declareIn_lockstep (same : S.SameCaller it₁ it₂) (h : S.Holds s₁ s₂) (e : ScopeId)
    (x : Name) (hv : S.SameValue v₁ v₂) :
    S.Lockstep (fun _ _ => True) s₁ s₂ (it₁.declareIn e x v₁) (it₂.declareIn e x v₂) := by
  unfold Interpreter.declareIn
  have hdeclare : S.Lockstep Eq s₁ s₂ (EvalM.onStore (·.declare e x v₁))
      (EvalM.onStore (·.declare e x v₂)) := by
    unfold Store.declare
    intro k₁ k₂
    simp only [EvalM.onStore, h.stores.bindsLocally_eq e x]
    split
    · exact .ok [] [] h S.lines_nil rfl
    · exact .ok [] [] (h.bind e x hv) S.lines_nil rfl
  refine hdeclare.bind ?_
  rintro outcome _ t₁ t₂ holds rfl
  cases outcome with
  | declared => exact .pure holds trivial
  | duplicate =>
    rw [same.names]
    exact .throw holds _

theorem declareParams_lockstep (same : S.SameCaller it₁ it₂) (h : S.Holds s₁ s₂) (e : ScopeId)
    (xs : List Name) {vs₁ vs₂ : List Value} (hvs : List.Forall₂ S.SameValue vs₁ vs₂) :
    S.Lockstep (fun _ _ => True) s₁ s₂ (it₁.declareParams e xs vs₁)
      (it₂.declareParams e xs vs₂) := by
  induction xs generalizing s₁ s₂ vs₁ vs₂ with
  | nil => exact .pure h trivial
  | cons x xs ih =>
    cases hvs with
    | nil => exact .pure h trivial
    | cons hv hvs =>
      exact (declareIn_lockstep same h e x hv).bind fun _ _ t₁ t₂ holds _ => ih holds hvs

/-- A run in more calls meets the limit first. -/
theorem checkLimit_lockstep (same : S.SameCaller it₁ it₂) (h : S.Holds s₁ s₂) :
    S.Lockstep (fun _ _ => True) s₁ s₂ it₁.checkLimit it₂.checkLimit := by
  unfold Interpreter.checkLimit
  rw [same.limit, same.depth]
  cases it₂.limit with
  | none => exact .pure h trivial
  | some limit =>
    rcases S.overflow with hlevel | excused
    · simp only [hlevel, Nat.add_zero]
      split
      · exact .throw h _
      · exact .pure h trivial
    · by_cases hfirst : limit ≤ it₂.depth + S.ahead
      · simp only [if_pos hfirst]
        exact .excuse (excused limit)
      · have hsecond : ¬ limit ≤ it₂.depth := by omega
        simp only [if_neg hfirst, if_neg hsecond]
        exact .pure h trivial

end Steps

/-! ### Expressions -/

/-- The evaluator stays in step with itself. -/
def InStep (S : Simulation) (ev : Interpreter → NodeId → EvalM Value) : Prop :=
  ∀ {it₁ it₂ : Interpreter} {s₁ s₂ : Store}, S.SameScope it₁ it₂ → S.Holds s₁ s₂ → ∀ id,
    S.Lockstep S.SameValue s₁ s₂ (ev it₁ id) (ev it₂ id)

namespace InStep

variable {ev : Interpreter → NodeId → EvalM Value} {it₁ it₂ : Interpreter}

theorem apply (hev : S.InStep ev) (same : S.SameCaller it₁ it₂) (h : S.Holds s₁ s₂)
    {c₁ c₂ : Closure} (hc : c₁.Alike S.number S.code c₂) {vs₁ vs₂ : List Value}
    (hvs : List.Forall₂ S.SameValue vs₁ vs₂) :
    S.Lockstep S.SameValue s₁ s₂ (it₁.apply ev c₁ vs₁) (it₂.apply ev c₂ vs₂) := by
  unfold Interpreter.apply
  rw [Closure.arity, Closure.arity, hvs.length_eq, hc.params, hc.body, hc.env]
  split
  · refine (checkLimit_lockstep same h).bind fun _ _ t₁ t₂ holds _ => ?_
    refine (Lockstep.child holds c₂.env).bind ?_
    rintro e _ u₁ u₂ holds' rfl
    refine (declareParams_lockstep same holds' e c₂.params hvs).bind fun _ _ w₁ w₂ holds'' _ => ?_
    have hdepth : it₁.depth + 1 = it₂.depth + 1 + S.ahead := by
      rw [same.depth]
      omega
    have same' : S.SameScope (it₁.enter c₁ e) (it₂.enter c₂ e) :=
      ⟨⟨same.names, same.limit, hdepth⟩, rfl, hc.code⟩
    exact hev same' holds'' c₂.body
  · exact .throw h _

/-- Arguments are evaluated from left to right. -/
theorem mapM (hev : S.InStep ev) (same : S.SameScope it₁ it₂) (h : S.Holds s₁ s₂)
    (ids : List NodeId) :
    S.Lockstep (List.Forall₂ S.SameValue) s₁ s₂ (ids.mapM (ev it₁)) (ids.mapM (ev it₂)) := by
  induction ids generalizing s₁ s₂ with
  | nil => exact .pure h .nil
  | cons id ids ih =>
    rw [List.mapM_cons, List.mapM_cons]
    refine (hev same h id).bind fun v₁ v₂ t₁ t₂ holds hv => ?_
    refine (ih holds).bind fun vs₁ vs₂ u₁ u₂ holds' hvs => ?_
    exact .pure holds' (.cons hv hvs)

theorem iterate (hev : S.InStep ev) (same : S.SameScope it₁ it₂) (h : S.Holds s₁ s₂)
    (test body : NodeId) (n : Nat) :
    S.Lockstep S.SameValue s₁ s₂ (Interpreter.iterate (ev it₁ test) (ev it₁ body) n)
      (Interpreter.iterate (ev it₂ test) (ev it₂ body) n) := by
  induction n generalizing s₁ s₂ with
  | zero => exact .throw h _
  | succ n ih =>
    rw [Interpreter.iterate, Interpreter.iterate]
    refine (hev same h test).bind fun v₁ v₂ t₁ t₂ holds hv => ?_
    cases hv with
    | @bool b =>
      cases b with
      | true => exact (hev same holds body).bind fun _ _ u₁ u₂ holds' _ => ih holds'
      | false => exact .pure holds .null
    | _ => exact .throw holds _

theorem function_lockstep (same : S.SameScope it₁ it₂) (h : S.Holds s₁ s₂) (n : Nat) (span : Span)
    (body : NodeId) :
    S.Lockstep S.SameValue s₁ s₂ (it₁.evalNode ev n (.function span body))
      (it₂.evalNode ev n (.function span body)) := by
  refine (Lockstep.ofLookup h ((S.parameters same.code span).imp_right .of_eq)).bind ?_
  rintro params _ t₁ t₂ holds rfl
  rw [same.env]
  have hmake : S.Lockstep (Closure.Alike S.number S.code) t₁ t₂
      (EvalM.onStore (·.newClosure params body it₂.env it₁.code))
      (EvalM.onStore (·.newClosure params body it₂.env it₂.code)) :=
    .onStore (holds.newClosure params body it₂.env it₁.code it₂.code)
      ⟨holds.nextClosure 0, rfl, rfl, rfl, same.code⟩
  exact hmake.bind fun c₁ c₂ u₁ u₂ holds' hc => .pure holds' (.closure hc)

theorem evalNode (hev : S.InStep ev) (same : S.SameScope it₁ it₂) (h : S.Holds s₁ s₂) (n : Nat)
    {node : Node} (audible : ∀ e, node = .print e → ∀ v : Value, S.lines [v.display] [v.display]) :
    S.Lockstep S.SameValue s₁ s₂ (it₁.evalNode ev n node) (it₂.evalNode ev n node) := by
  cases node with
  | int i | bool i | null => exact .pure h (.of_data rfl)
  | ident x => exact lookup_lockstep same h x
  | print e =>
    refine (hev same h e).bind fun v₁ v₂ t₁ t₂ holds hv => ?_
    rw [hv.display]
    exact (Lockstep.writeLine holds (audible e rfl v₂)).bind fun _ _ u₁ u₂ holds' _ =>
      .pure holds' hv
  | binary op l r =>
    refine (hev same h l).bind fun v₁ v₂ t₁ t₂ holds hv => ?_
    refine (hev same holds r).bind fun w₁ w₂ u₁ u₂ holds' hw => ?_
    exact .binary holds' op hv hw
  | cond c t e =>
    refine (hev same h c).bind fun v₁ v₂ t₁ t₂ holds hv => ?_
    cases hv with
    | @bool b =>
      cases b with
      | true => exact hev same holds t
      | false => exact hev same holds e
    | _ => exact .throw holds _
  | loop c b => exact hev.iterate same h c b n
  | seq a b => exact (hev same h a).bind fun _ _ t₁ t₂ holds _ => hev same holds b
  | block e =>
    simp only [Interpreter.evalNode, same.env]
    refine (Lockstep.child h it₂.env).bind ?_
    rintro scope _ t₁ t₂ holds rfl
    have same' : S.SameScope { it₁ with env := scope } { it₂ with env := scope } :=
      ⟨⟨same.names, same.limit, same.depth⟩, rfl, same.code⟩
    exact hev same' holds e
  | declare x e =>
    refine (hev same h e).bind fun v₁ v₂ t₁ t₂ holds hv => ?_
    rw [same.env]
    refine (declareIn_lockstep same.toSameCaller holds it₂.env x hv).bind
      fun _ _ u₁ u₂ holds' _ => ?_
    exact lookup_lockstep same holds' x
  | assign x e =>
    refine (hev same h e).bind fun v₁ v₂ t₁ t₂ holds hv => ?_
    rw [same.env]
    have hassign : S.Lockstep (fun _ _ => True) t₁ t₂ (EvalM.onStore (·.update it₂.env x v₁))
        (EvalM.onStore (·.update it₂.env x v₂)) := .onStore (holds.update it₂.env x hv) trivial
    exact hassign.bind fun _ _ u₁ u₂ holds' _ => lookup_lockstep same holds' x
  | function span body => exact function_lockstep same h n span body
  | call f span =>
    refine (hev same h f).bind fun v₁ v₂ t₁ t₂ holds hv => ?_
    cases hv with
    | closure hc =>
      refine (Lockstep.ofLookup holds ((S.arguments same.code span).imp_right .of_eq)).bind ?_
      rintro ids _ u₁ u₂ holds' rfl
      refine (hev.mapM same holds' ids).bind fun vs₁ vs₂ w₁ w₂ holds'' hvs => ?_
      exact hev.apply same.toSameCaller holds'' hc hvs
    | _ => exact .throw holds _

end InStep

/-- A pair whose first part is absent does what its second part does. -/
theorem evalNode_seq_absent (n k : Nat) (it : Interpreter) (e : NodeId) :
    it.evalNode (Interpreter.evalWith n) k (.seq .absent e) = it.evalWith n e := by
  cases n with
  | zero => rfl
  | succ n => rfl

/-- The evaluator stays in step with itself, whatever the fuel. -/
theorem evalWith_inStep (S : Simulation) (n : Nat) : S.InStep (Interpreter.evalWith n) := by
  induction n with
  | zero => exact fun _ h _ => .throw h _
  | succ n ih =>
    intro it₁ it₂ s₁ s₂ same h id
    rw [Interpreter.evalWith_succ, Interpreter.evalWith_succ]
    unfold Interpreter.evalStep
    split
    · refine (Lockstep.ofLookup h (S.node same.code id)).bind
        fun node₁ node₂ t₁ t₂ holds hnode => ?_
      cases hnode with
      | same audible => exact ih.evalNode same holds n audible
      | @muted e silent =>
        -- the operand is all that is left on the right
        rw [evalNode_seq_absent, ← bind_pure (it₂.evalWith n e)]
        refine (ih same holds e).bind fun v₁ v₂ u₁ u₂ holds' hv => ?_
        rw [← bind_pure (Pure.pure v₂)]
        refine (Lockstep.writeLine_left holds' (silent v₁)).bind ?_
        rintro _ _ w₁ w₂ holds'' rfl
        exact .pure holds'' hv
    · exact .pure h .null

/-- Evaluations in corresponding stores, over arenas that stand for each other, end alike, unless
the first one may stop for a cause that is excused. -/
theorem Holds.endAlike (h : S.Holds s₁ s₂) {it₁ it₂ : Interpreter} (same : S.SameScope it₁ it₂)
    (unexcused : ∀ cause, ¬ S.excused cause) (id : NodeId) (k₁ k₂ : Sink) :
    EndAlike (S.Together S.SameValue k₁ k₂) (it₁.Ends id ⟨s₁, k₁⟩) (it₂.Ends id ⟨s₂, k₂⟩) := by
  refine EvalM.Ends.alike (fun h => Interpreter.evalWith_below h it₁ id)
    (fun h => Interpreter.evalWith_below h it₂ id)
    (fun n => evalWith_inStep S n same h id k₁ k₂) fun r₁ r₂ together => ?_
  cases together with
  | ok => exact Iff.rfl
  | @error cause => cases cause <;> exact Iff.rfl
  | excuse excused => exact absurd excused (unexcused _)

/-- An evaluation that does not stop for an excused cause is followed to its end. -/
theorem Holds.forth (h : S.Holds s₁ s₂) {it₁ it₂ : Interpreter} (same : S.SameScope it₁ it₂)
    {id : NodeId} {k₁ k₂ : Sink} {r₁ : Outcome Value} (ends : it₁.Ends id ⟨s₁, k₁⟩ r₁)
    (unexcused : ∀ cause t, r₁ = .error cause t → ¬ S.excused cause) :
    ∃ r₂, it₂.Ends id ⟨s₂, k₂⟩ r₂ ∧ S.Together S.SameValue k₁ k₂ r₁ r₂ := by
  obtain ⟨n, hn⟩ := ends.settles
  have together := evalWith_inStep S n same h id k₁ k₂
  rw [hn n (Nat.le_refl n)] at together
  refine ⟨_, Interpreter.ends_of_evalWith rfl ?_, together⟩
  have finished := ends.finished
  generalize it₂.evalWith n id ⟨s₂, k₂⟩ = r₂ at together
  cases together with
  | ok => trivial
  | @error cause =>
    cases cause with
    | outOfFuel => exact finished
    | _ => trivial
  | excuse excused => exact absurd excused (unexcused _ _ rfl)

/-! ### A run beside itself -/

/-- How a run compares with itself. -/
def identity : Simulation where
  code := Eq
  number := Eq
  lines := Eq
  excused _ := False
  ahead := 0
  number_iff := @Eq.congr Nat
  lines_nil := rfl
  lines_append h h' := by rw [h, h']
  node := by
    rintro code _ rfl id
    cases code.arena.node? id with
    | none => exact .inr .none
    | some node => exact .inr (.some (.same fun _ _ _ => rfl))
  arguments := by
    rintro code _ rfl span
    exact .inr rfl
  parameters := by
    rintro code _ rfl span
    exact .inr rfl
  overflow := .inl rfl

theorem sameValue_identity {v₁ v₂ : Value} : identity.SameValue v₁ v₂ ↔ v₁ = v₂ := by
  constructor
  · intro h
    cases h with
    | @closure c₁ c₂ hc =>
      obtain ⟨i, params, body, e, code⟩ := c₁
      obtain ⟨i', params', body', e', code'⟩ := c₂
      obtain ⟨rfl, rfl, rfl, rfl, rfl⟩ := hc
      rfl
    | _ => rfl
  · rintro rfl
    cases v₁ with
    | closure c => exact .closure ⟨rfl, rfl, rfl, rfl, rfl⟩
    | _ => exact .of_data rfl

theorem alike_identity {a b : Scope} : a.Alike identity.SameValue b ↔ a = b := by
  constructor
  · intro h
    have hbindings : List.Forall₂ Eq a.bindings b.bindings :=
      h.bindings.imp fun p q hpq => Prod.ext hpq.1 (sameValue_identity.mp hpq.2)
    rw [List.forall₂_eq_eq_eq] at hbindings
    obtain ⟨as, p⟩ := a
    obtain ⟨bs, q⟩ := b
    obtain rfl : as = bs := hbindings
    obtain rfl : p = q := h.parent
    rfl
  · rintro rfl
    exact ⟨rfl, List.forall₂_same.mpr fun p _ => ⟨rfl, sameValue_identity.mpr rfl⟩⟩

theorem holds_identity {s₁ s₂ : Store} : identity.Holds s₁ s₂ ↔ s₁ = s₂ := by
  constructor
  · intro h
    have hscopes : s₁.scopes = s₂.scopes := by
      refine Array.ext h.stores.size fun e he₁ he₂ => ?_
      have hscope := alike_identity.mp (h.stores.scope e)
      simpa only [Store.scope, Array.getElem?_eq_getElem he₁, Array.getElem?_eq_getElem he₂,
        Option.getD_some] using hscope
    obtain ⟨scopes₁, closures₁, codes₁⟩ := s₁
    obtain ⟨scopes₂, closures₂, codes₂⟩ := s₂
    obtain rfl : scopes₁ = scopes₂ := hscopes
    obtain rfl : closures₁ = closures₂ := h.nextClosure 0
    obtain rfl : codes₁ = codes₂ := h.stores.nextCode
    rfl
  · rintro rfl
    exact ⟨⟨rfl, fun e => alike_identity.mpr rfl, rfl⟩, fun k => rfl⟩

end Simulation

end Treewalk
