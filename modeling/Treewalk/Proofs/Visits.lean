import Treewalk.Proofs.CallLimit
import Treewalk.Proofs.Effects
import Treewalk.Proofs.Invariants
import Treewalk.Proofs.Sessions

/-! The evaluations inside an evaluation: those of the parts of a node, one after the other, of the
expression in a block and of the body of a called closure. An invariant holds wherever one of them
starts, and each leaves the closures and lines of those before it in place. -/

namespace Treewalk

/-! ### What is left of a node -/

/-- In a loop with at most `n` rounds, the part that comes after parts that gave the values. -/
def Node.nextInLoop (test body : NodeId) : Nat → List Value → Option NodeId
  | 0, _ => none
  | _ + 1, [] => some test
  | _ + 1, [.bool true] => some body
  | n + 1, .bool true :: _ :: vs => nextInLoop test body n vs
  | _ + 1, _ :: _ => none

/-- The part of a node that comes after parts that gave the values, with at most `n` rounds of a
loop. -/
def Arena.next? (a : Arena) (n : Nat) : Node → List Value → Option NodeId
  | .print e, [] | .declare _ e, [] | .assign _ e, [] => some e
  | .binary _ l _, [] => some l
  | .binary _ _ r, [_] => some r
  | .cond c _ _, [] => some c
  | .cond _ t _, [.bool true] => some t
  | .cond _ _ e, [.bool false] => some e
  | .loop c b, vs => Node.nextInLoop c b n vs
  | .seq x _, [] => some x
  | .seq _ y, [_] => some y
  | .call f _, [] => some f
  | .call _ span, .closure _ :: vs => (a.arguments? span).bind (·[vs.length]?)
  | _, _ => none

namespace Interpreter

/-- What is left of a loop once parts of it gave the values. -/
def iterateAfter (test body : EvalM Value) : Nat → List Value → EvalM Value
  | n, [] => iterate test body n
  | n + 1, [.bool true] => do
    let _ ← body
    iterate test body n
  | n + 1, .bool true :: _ :: vs => iterateAfter test body n vs
  | _ + 1, .bool false :: _ => pure .null
  | _ + 1, v :: _ => EvalM.fail (.typeMismatch "while condition" "bool" v.typeName)
  | 0, _ :: _ => throw .outOfFuel

/-- What is left of the evaluation of a node once its first parts gave the values. Nothing is left
after values that these parts cannot give. -/
def evalAfter (ev : Interpreter → NodeId → EvalM Value) (n : Nat) (it : Interpreter) :
    Node → List Value → EvalM Value
  | .loop c b, vs => iterateAfter (ev it c) (ev it b) n vs
  | node, [] => it.evalNode ev n node
  | .print _, [v] => do
    EvalM.writeLine v.display
    pure v
  | .binary op _ r, [v] => do
    let w ← ev it r
    EvalM.ofExcept (op.apply v w)
  | .binary op _ _, [v, w] => EvalM.ofExcept (op.apply v w)
  | .cond _ t e, [v] =>
    match v with
    | .bool true => ev it t
    | .bool false => ev it e
    | other => EvalM.fail (.typeMismatch "if condition" "bool" other.typeName)
  | .seq _ y, [_] => ev it y
  | .cond _ _ _, [_, v] | .seq _ _, [_, v] => pure v
  | .declare x _, [v] => do
    it.declareIn it.env x v
    it.lookup x
  | .assign x _, [v] => do
    let _ ← EvalM.onStore (·.update it.env x v)
    it.lookup x
  | .call _ span, f :: vs =>
    match f with
    | .closure c => do
      let ids ← EvalM.ofLookup (it.code.arena.arguments? span)
      callRest ev it c vs (ids.drop vs.length)
    | other => EvalM.fail (.notCallable other.typeName)
  | _, _ :: _ => pure .null

variable {ev : Interpreter → NodeId → EvalM Value} {n : Nat} {it : Interpreter} {node : Node}
  {vs : List Value} {j : NodeId}

theorem iterateAfter_next {test body : NodeId} (h : Node.nextInLoop test body n vs = some j) :
    iterateAfter (ev it test) (ev it body) n vs =
      ev it j >>= fun v => iterateAfter (ev it test) (ev it body) n (vs ++ [v]) := by
  fun_induction Node.nextInLoop test body n vs with
  | case1 => cases h
  | case2 n =>
    cases h
    rw [iterateAfter, iterate]
    refine bind_congr fun v => ?_
    cases v with
    | bool b => cases b <;> rfl
    | _ => rfl
  | case3 n =>
    cases h
    simp only [iterateAfter, List.cons_append, List.nil_append]
  | case4 n _ vs ih => simpa only [iterateAfter, List.cons_append] using ih h
  | case5 => cases h

theorem evalAfter_nil : evalAfter ev n it node [] = it.evalNode ev n node := by
  cases node with
  | loop =>
    simp only [evalAfter, iterateAfter]
    rfl
  | _ => rfl

theorem evalAfter_call {f : NodeId} {span : Span} {ids : List NodeId}
    (hids : it.code.arena.arguments? span = some ids) (c : Closure) (vs : List Value) :
    evalAfter ev n it (.call f span) (.closure c :: vs) =
      callRest ev it c vs (ids.drop vs.length) := by
  simp only [evalAfter, hids]
  rfl

/-- The evaluation goes on with the part that comes next. -/
theorem evalAfter_next (h : it.code.arena.next? n node vs = some j) :
    evalAfter ev n it node vs = ev it j >>= fun v => evalAfter ev n it node (vs ++ [v]) := by
  cases node with
  | print e | declare x e | assign x e =>
    match vs, h with
    | [], rfl => rfl
  | binary op l r =>
    match vs, h with
    | [], rfl => rfl
    | [_], rfl => rfl
  | cond c t e =>
    match vs, h with
    | [], rfl => rfl
    | [.bool true], rfl => exact (bind_pure _).symm
    | [.bool false], rfl => exact (bind_pure _).symm
  | loop c b => exact iterateAfter_next h
  | seq x y =>
    match vs, h with
    | [], rfl => rfl
    | [_], rfl => exact (bind_pure _).symm
  | call f span =>
    match vs, h with
    | [], rfl => rfl
    | .closure c :: vs, h =>
      obtain ⟨ids, hids, hj⟩ := Option.bind_eq_some_iff.mp h
      obtain ⟨hlt, rfl⟩ := List.getElem?_eq_some_iff.mp hj
      simp only [List.cons_append, evalAfter_call hids, List.length_append, List.length_singleton]
      rw [List.drop_eq_getElem_cons hlt, callRest_cons]
  | _ => cases h

end Interpreter

theorem Node.nextInLoop_mem {test body j : NodeId} {n : Nat} {vs : List Value}
    (h : nextInLoop test body n vs = some j) : j = test ∨ j = body := by
  fun_induction nextInLoop test body n vs with
  | case2 => exact .inl (Option.some.inj h).symm
  | case3 => exact .inr (Option.some.inj h).symm
  | case4 n _ vs ih => exact ih h
  | case1 | case5 => cases h

/-- What comes next is a part of the node. -/
theorem Arena.next?_mem {a : Arena} {n : Nat} {node : Node} {vs : List Value} {j : NodeId}
    (h : a.next? n node vs = some j) : j ∈ a.parts node := by
  cases node with
  | print e | declare x e | assign x e =>
    match vs, h with
    | [], rfl => exact List.mem_singleton_self _
  | binary op l r | seq l r =>
    match vs, h with
    | [], rfl => simp
    | [_], rfl => simp
  | cond c t e =>
    match vs, h with
    | [], rfl => simp
    | [.bool true], rfl => simp
    | [.bool false], rfl => simp
  | loop c b => simpa using Node.nextInLoop_mem h
  | call f span =>
    match vs, h with
    | [], rfl => simp
    | .closure c :: vs, h =>
      obtain ⟨ids, hids, hj⟩ := Option.bind_eq_some_iff.mp h
      simp [hids, List.mem_of_getElem? hj]
  | _ => cases h

/-! ### Evaluations -/

/-- An evaluation of an expression, with its fuel and from a state. -/
structure Activation where
  fuel : Nat
  it : Interpreter
  id : NodeId
  state : State

namespace Activation

/-- What the evaluation comes to. -/
def run (τ : Activation) : Outcome Value := τ.it.evalWith τ.fuel τ.id τ.state

/-- The evaluation gave the value. -/
def Gave (τ : Activation) (v : Value) : Prop := τ.run.value? = some v

/-- The first parts of a node, evaluated one after the other from the state `s`: they gave the
values `vs` and left the last state. -/
inductive Partway (n : Nat) (it : Interpreter) (node : Node) (s : State) :
    List Activation → List Value → State → Prop where
  | start : Partway n it node s [] [] s
  | next {done : List Activation} {vs : List Value} {t u : State} {j : NodeId} {v : Value}
      (h : Partway n it node s done vs t) (hj : it.code.arena.next? n node vs = some j)
      (given : it.evalWith n j t = .ok v u) :
      Partway n it node s (done ++ [⟨n, it, j, t⟩]) (vs ++ [v]) u

/-- An evaluation opens a scope, after those in the list have come to an end, and comes down to
another one there. -/
inductive Enters : Activation → List Activation → Activation → Prop where
  | block {n : Nat} {it : Interpreter} {id e : NodeId} {s : State}
      (hold : it.code.arena.Holds id (.block e)) :
      Enters ⟨n + 1, it, id, s⟩ []
        ⟨n, { it with env := s.store.scopes.size }, e, { s with store := (s.store.child it.env).2 }⟩
  | call {n : Nat} {it : Interpreter} {id f : NodeId} {span : Span} {ids : List NodeId}
      {s t u : State} {done : List Activation} {c : Closure} {vs : List Value} {scope : ScopeId}
      (hold : it.code.arena.Holds id (.call f span))
      (hids : it.code.arena.arguments? span = some ids) (all : vs.length = ids.length)
      (before : Partway n it (.call f span) s done (.closure c :: vs) t)
      (opened : it.openCall c vs t = .ok scope u) :
      Enters ⟨n + 1, it, id, s⟩ done ⟨n, it.enter c scope, c.body, u⟩

/-- An evaluation starts another one directly, after those in the list have come to an end. -/
inductive Starts : Activation → List Activation → Activation → Prop where
  | part {n : Nat} {it : Interpreter} {id j : NodeId} {node : Node} {s t : State}
      {done : List Activation} {vs : List Value} (hold : it.code.arena.Holds id node)
      (before : Partway n it node s done vs t) (hj : it.code.arena.next? n node vs = some j) :
      Starts ⟨n + 1, it, id, s⟩ done ⟨n, it, j, t⟩
  | enters {τ σ : Activation} {done : List Activation} (h : Enters τ done σ) : Starts τ done σ

/-- An evaluation comes to another one, itself or one inside it, after those in the list have come
to an end: these are the parts of the evaluations around it that preceded it. -/
inductive Visits : Activation → List Activation → Activation → Prop where
  | refl (τ : Activation) : Visits τ [] τ
  | step {τ σ ρ : Activation} {done done' : List Activation} (starts : Starts τ done σ)
      (rest : Visits σ done' ρ) : Visits τ (done ++ done') ρ

variable {n : Nat} {it : Interpreter} {id : NodeId} {node : Node} {s t : State}
  {τ σ δ : Activation} {done : List Activation} {vs : List Value}

theorem Partway.gave_mem (h : Partway n it node s done vs t) (hδ : δ ∈ done) {v : Value}
    (gave : δ.Gave v) : v ∈ vs := by
  induction h with
  | start => cases hδ
  | next _ _ given ih =>
    rw [List.mem_append, List.mem_singleton] at hδ
    rw [List.mem_append, List.mem_singleton]
    rcases hδ with hδ | rfl
    · exact .inl (ih hδ)
    · simp only [Gave, run, given] at gave
      exact .inr (Option.some.inj gave).symm

/-- Parts that came to an end were started as well. -/
theorem Partway.starts (h : Partway n it node s done vs t) (hold : it.code.arena.Holds id node)
    (hδ : δ ∈ done) : ∃ done', Starts ⟨n + 1, it, id, s⟩ done' δ := by
  induction h with
  | start => cases hδ
  | next before hj _ ih =>
    rw [List.mem_append, List.mem_singleton] at hδ
    rcases hδ with hδ | rfl
    · exact ih hδ
    · exact ⟨_, .part hold before hj⟩

/-- After the first parts it is left to evaluate what is left of the node. -/
theorem Partway.run_eq (h : Partway n it node s done vs t) (hold : it.code.arena.Holds id node) :
    run ⟨n + 1, it, id, s⟩ = Interpreter.evalAfter (Interpreter.evalWith n) n it node vs t := by
  induction h with
  | start =>
    rw [run, Interpreter.evalWith_holds hold, Interpreter.evalAfter_nil]
  | next before hj given ih =>
    rw [ih, Interpreter.evalAfter_next hj, EvalM.bind_of_ok given]

/-- What an evaluation comes down to in a new scope is what it comes to. -/
theorem Enters.run_eq (h : Enters τ done σ) : τ.run = σ.run := by
  cases h with
  | block hold =>
    rw [run, Interpreter.evalWith_holds hold]
    rfl
  | call hold hids all before opened =>
    rw [before.run_eq hold, Interpreter.evalAfter_call hids, all, List.drop_length,
      Interpreter.callRest_nil, Interpreter.apply_eq_openCall, EvalM.bind_of_ok opened, run]

theorem Starts.visits (h : Starts τ done σ) : Visits τ done σ := by
  rw [← List.append_nil done]
  exact .step h (.refl σ)

theorem Starts.of_done (h : Starts τ done σ) (hδ : δ ∈ done) : ∃ done', Starts τ done' δ := by
  cases h with
  | part hold before _ => exact before.starts hold hδ
  | enters h =>
    cases h with
    | block => cases hδ
    | call hold _ _ before _ => exact before.starts hold hδ

theorem Visits.of_done (h : Visits τ done σ) (hδ : δ ∈ done) : ∃ done', Visits τ done' δ := by
  induction h with
  | refl => cases hδ
  | step starts _ ih =>
    rcases List.mem_append.mp hδ with hδ | hδ
    · obtain ⟨done', h⟩ := starts.of_done hδ
      exact ⟨done', h.visits⟩
    · obtain ⟨done', h⟩ := ih hδ
      exact ⟨_, .step starts h⟩

end Activation

/-! ### Invariants at the start of evaluations -/

/-- The invariant holds where the evaluation starts. -/
structure Invariant.At {W : Type} (I : Invariant W) (w : W) (τ : Activation) : Prop where
  holds : I.Holds w τ.state.store
  runs : I.Runs w τ.it τ.id

namespace Invariant.At

variable {W : Type} {I : Invariant W} {w : W} {τ σ : Activation} {done : List Activation}

open Activation

/-- An invariant that holds where an evaluation starts holds where it ends. -/
theorem run (h : I.At w τ) :
    ∃ w', I.Le w w' ∧ I.Holds w' τ.run.state.store ∧ ∀ v, τ.Gave v → I.Knows w' v := by
  obtain ⟨w', hle, holds, hresult⟩ := I.evaluates_evalWith τ.fuel h.holds h.runs τ.state.sink
  refine ⟨w', hle, holds, fun v gave => ?_⟩
  cases hrun : τ.run with
  | ok a t =>
    rw [Gave, hrun] at gave
    obtain rfl : a = v := Option.some.inj gave
    exact hresult a t hrun
  | error cause t =>
    rw [Gave, hrun] at gave
    cases gave

theorem partway {n : Nat} {it : Interpreter} {id : NodeId} {node : Node} {s t : State}
    {vs : List Value} (h : I.At w ⟨n + 1, it, id, s⟩) (hold : it.code.arena.Holds id node)
    (before : Partway n it node s done vs t) :
    ∃ w', I.Le w w' ∧ I.Holds w' t.store ∧ ∀ v ∈ vs, I.Knows w' v := by
  induction before with
  | start => exact ⟨w, I.refl w, h.holds, by simp⟩
  | @next done vs t u j v _ hj given ih =>
    obtain ⟨w₁, hle₁, holds₁, hvs⟩ := ih
    have hpart : I.At w₁ ⟨n, it, j, t⟩ :=
      ⟨holds₁, I.runs_mono hle₁ (I.part h.runs hold (Arena.next?_mem hj))⟩
    have hrun : Activation.run ⟨n, it, j, t⟩ = .ok v u := given
    obtain ⟨w₂, hle₂, holds₂, hgave⟩ := hpart.run
    rw [hrun] at holds₂
    refine ⟨w₂, I.trans hle₁ hle₂, holds₂, ?_⟩
    rw [List.forall_mem_append, List.forall_mem_singleton]
    refine ⟨fun v hv => I.knows_mono hle₂ (hvs v hv), hgave v ?_⟩
    rw [Gave, hrun]
    rfl

theorem enters (h : I.At w τ) (henters : Enters τ done σ) :
    ∃ w', I.Le w w' ∧ I.At w' σ ∧ ∀ δ ∈ done, ∀ v, δ.Gave v → I.Knows w' v := by
  cases henters with
  | block hold =>
    obtain ⟨w₁, hle, holds, hruns⟩ := I.block h.holds h.runs hold
    exact ⟨w₁, hle, ⟨holds, hruns⟩, by simp⟩
  | @call n it id f span ids s t u done c vs scope hold hids all before opened =>
    obtain ⟨w₁, hle₁, holds₁, hvs⟩ := h.partway hold before
    have hknown := List.forall_mem_cons.mp hvs
    obtain ⟨w₂, hle₂, holds₂, hruns⟩ := Keeps.openCall holds₁ it hknown.1 hknown.2 t.sink
    have opened' : it.openCall c vs ⟨t.store, t.sink⟩ = .ok scope u := opened
    rw [opened'] at holds₂
    refine ⟨w₂, I.trans hle₁ hle₂, ⟨holds₂, hruns scope u opened'⟩, fun δ hδ v gave => ?_⟩
    exact I.knows_mono hle₂ (hvs v (before.gave_mem hδ gave))

/-- An invariant that holds where an evaluation starts holds where it starts another one, and the
values that were given by then are known. -/
theorem starts (h : I.At w τ) (hstarts : Starts τ done σ) :
    ∃ w', I.Le w w' ∧ I.At w' σ ∧ ∀ δ ∈ done, ∀ v, δ.Gave v → I.Knows w' v := by
  cases hstarts with
  | part hold before hj =>
    obtain ⟨w₁, hle, holds, hvs⟩ := h.partway hold before
    have hruns := I.runs_mono hle (I.part h.runs hold (Arena.next?_mem hj))
    exact ⟨w₁, hle, ⟨holds, hruns⟩, fun δ hδ v gave => hvs v (before.gave_mem hδ gave)⟩
  | enters h' => exact h.enters h'

theorem visits (h : I.At w τ) (hvisits : Visits τ done σ) :
    ∃ w', I.Le w w' ∧ I.At w' σ ∧ ∀ δ ∈ done, ∀ v, δ.Gave v → I.Knows w' v := by
  induction hvisits generalizing w with
  | refl => exact ⟨w, I.refl w, h, by simp⟩
  | step hstarts _ ih =>
    obtain ⟨w₁, hle₁, h₁, hgave₁⟩ := h.starts hstarts
    obtain ⟨w₂, hle₂, h₂, hgave₂⟩ := ih h₁
    refine ⟨w₂, I.trans hle₁ hle₂, h₂, List.forall_mem_append.mpr ⟨fun δ hδ v gave => ?_, hgave₂⟩⟩
    exact I.knows_mono hle₂ (hgave₁ δ hδ v gave)

end Invariant.At

/-! ### The order of evaluations -/

/-- The state `t` comes after `s`: closures may have been made and values may have been printed. -/
structure State.Onward (s t : State) : Prop where
  closures : s.store.nextClosure ≤ t.store.nextClosure
  printed : ∃ vs : List Value, t.sink = (vs.map Value.display).foldl Sink.writeLine s.sink

namespace State.Onward

variable {s t u : State}

theorem refl (s : State) : s.Onward s := ⟨Nat.le_refl _, [], rfl⟩

theorem trans (h : s.Onward t) (h' : t.Onward u) : s.Onward u := by
  obtain ⟨hle, vs, hvs⟩ := h
  obtain ⟨hle', ws, hws⟩ := h'
  refine ⟨Nat.le_trans hle hle', vs ++ ws, ?_⟩
  rw [List.map_append, List.foldl_append, ← hvs, hws]

end State.Onward

/-- The computation only goes onward. -/
def EvalM.Advances {α : Type} (m : EvalM α) : Prop :=
  ∀ s : State, s.Onward (Outcome.state (m s))

namespace EvalM.Advances

variable {α β : Type} {m : EvalM α}

theorem pure (a : α) : Advances (pure a : EvalM α) := fun s => .refl s

theorem throw (cause : Halt) : Advances (throw cause : EvalM α) := fun s => .refl s

/-- What follows a computation goes onward from where the computation ended. -/
theorem after {f : α → EvalM β} (hf : ∀ a, Advances (f a)) (m : EvalM α) (s : State) :
    (Outcome.state (m s)).Onward (Outcome.state ((m >>= f) s)) := by
  simp only [Bind.bind, EStateM.bind]
  cases m s with
  | ok a t => exact hf a t
  | error cause t => exact .refl t

theorem bind {f : α → EvalM β} (h : Advances m) (hf : ∀ a, Advances (f a)) :
    Advances (m >>= f) :=
  fun s => (h s).trans (after hf m s)

theorem onStore {f : Store → α × Store} (h : ∀ s, s.nextClosure ≤ (f s).2.nextClosure) :
    Advances (EvalM.onStore f) :=
  fun s => ⟨h s.store, [], rfl⟩

theorem ofLookup (o : Option α) : Advances (EvalM.ofLookup o) := by
  cases o with
  | some a => exact pure a
  | none => exact throw _

theorem ofExcept (x : Except EvalError α) : Advances (EvalM.ofExcept x) := by
  cases x with
  | ok a => exact pure a
  | error cause => exact throw _

theorem print (v : Value) : Advances (EvalM.writeLine v.display) :=
  fun _ => ⟨Nat.le_refl _, [v], rfl⟩

theorem mapM {γ : Type} {f : γ → EvalM α} (h : ∀ x, Advances (f x)) (xs : List γ) :
    Advances (xs.mapM f) := by
  induction xs with
  | nil => exact pure []
  | cons x xs ih =>
    rw [List.mapM_cons]
    exact (h x).bind fun v => ih.bind fun vs => pure (v :: vs)

end EvalM.Advances

namespace Interpreter

open EvalM (Advances)

theorem advances_lookup (it : Interpreter) (x : Name) : Advances (it.lookup x) := fun s => .refl s

theorem advances_declareIn (it : Interpreter) (e : ScopeId) (x : Name) (v : Value) :
    Advances (it.declareIn e x v) := by
  refine Advances.bind (.onStore fun s => ?_) fun outcome => ?_
  · unfold Store.declare
    split <;> exact Nat.le_refl _
  · cases outcome with
    | declared => exact .pure ()
    | duplicate => exact .throw _

theorem advances_declareParams (it : Interpreter) (e : ScopeId) (xs : List Name)
    (vs : List Value) : Advances (it.declareParams e xs vs) := by
  induction xs generalizing vs with
  | nil => exact .pure ()
  | cons x xs ih =>
    cases vs with
    | nil => exact .pure ()
    | cons v vs => exact (it.advances_declareIn e x v).bind fun _ => ih vs

theorem advances_openCall (it : Interpreter) (c : Closure) (args : List Value) :
    Advances (it.openCall c args) := by
  unfold openCall
  split
  · have hcheck : Advances it.checkLimit := by
      unfold checkLimit
      split
      · split
        · exact .throw _
        · exact .pure ()
      · exact .pure ()
    refine hcheck.bind fun _ => Advances.bind (.onStore fun s => Nat.le_refl _) fun scope => ?_
    exact (it.advances_declareParams scope c.params args).bind fun _ => .pure scope
  · exact .throw _

section Parts

variable {ev : Interpreter → NodeId → EvalM Value} (hev : ∀ it id, Advances (ev it id))
include hev

theorem advances_callRest (it : Interpreter) (c : Closure) (values : List Value)
    (ids : List NodeId) : Advances (callRest ev it c values ids) := by
  refine (Advances.mapM (hev it) ids).bind fun rest => ?_
  rw [apply_eq_openCall]
  exact (it.advances_openCall c (values ++ rest)).bind fun scope => hev _ _

theorem advances_iterate (it : Interpreter) (test body : NodeId) (n : Nat) :
    Advances (iterate (ev it test) (ev it body) n) := by
  induction n with
  | zero => exact .throw _
  | succ n ih =>
    refine (hev it test).bind fun v => ?_
    split
    · exact (hev it body).bind fun _ => ih
    · exact .pure _
    · exact .throw _

theorem advances_iterateAfter (it : Interpreter) (test body : NodeId) (n : Nat)
    (vs : List Value) : Advances (iterateAfter (ev it test) (ev it body) n vs) := by
  fun_induction iterateAfter (ev it test) (ev it body) n vs with
  | case1 n => exact advances_iterate hev it test body n
  | case2 n => exact (hev it body).bind fun _ => advances_iterate hev it test body n
  | case3 _ _ _ ih => exact ih
  | case4 => exact .pure _
  | case5 => exact .throw _
  | case6 => exact .throw _

theorem advances_evalAfter_cons (n : Nat) (it : Interpreter) (node : Node) (v : Value)
    (vs : List Value) : Advances (evalAfter ev n it node (v :: vs)) := by
  cases node with
  | loop c b => exact advances_iterateAfter hev it c b n (v :: vs)
  | print e =>
    cases vs with
    | nil => exact (Advances.print v).bind fun _ => .pure v
    | cons w vs => exact .pure _
  | binary op l r =>
    match vs with
    | [] => exact (hev it r).bind fun w => .ofExcept _
    | [w] => exact .ofExcept _
    | _ :: _ :: _ => exact .pure _
  | cond c t e =>
    match vs with
    | [] =>
      simp only [evalAfter]
      split
      · exact hev it t
      · exact hev it e
      · exact .throw _
    | [_] | _ :: _ :: _ => exact .pure _
  | seq a b =>
    match vs with
    | [] => exact hev it b
    | [_] | _ :: _ :: _ => exact .pure _
  | declare x e =>
    cases vs with
    | nil => exact (it.advances_declareIn it.env x v).bind fun _ => it.advances_lookup x
    | cons w vs => exact .pure _
  | assign x e =>
    cases vs with
    | nil =>
      refine Advances.bind (.onStore fun s => ?_) fun _ => it.advances_lookup x
      unfold Store.update
      split <;> exact Nat.le_refl _
    | cons w vs => exact .pure _
  | call f span =>
    cases v with
    | closure c => exact (Advances.ofLookup _).bind fun ids => advances_callRest hev it c _ _
    | _ => exact .throw _
  | _ => exact .pure _

/-- A node is evaluated part after part, unless it has no parts that are evaluated in its scope. -/
theorem advances_evalNode (n : Nat) (it : Interpreter) (node : Node) :
    Advances (it.evalNode ev n node) := by
  cases hnext : it.code.arena.next? n node [] with
  | some j =>
    rw [← evalAfter_nil, evalAfter_next hnext]
    exact (hev it j).bind fun v => advances_evalAfter_cons hev n it node v []
  | none =>
    cases node with
    | int i | bool b | null => exact .pure _
    | ident x => exact it.advances_lookup x
    | loop c b => exact advances_iterate hev it c b n
    | block e => exact Advances.bind (.onStore fun s => Nat.le_refl _) fun scope => hev _ e
    | function span body =>
      refine (Advances.ofLookup _).bind fun params => ?_
      exact Advances.bind (.onStore fun s => Nat.le_succ _) fun c => .pure _
    | _ => cases hnext

theorem advances_evalAfter (n : Nat) (it : Interpreter) (node : Node) (vs : List Value) :
    Advances (evalAfter ev n it node vs) := by
  cases vs with
  | nil =>
    rw [evalAfter_nil]
    exact advances_evalNode hev n it node
  | cons v vs => exact advances_evalAfter_cons hev n it node v vs

end Parts

/-- Evaluation only goes onward. -/
theorem advances_evalWith (n : Nat) (it : Interpreter) (id : NodeId) :
    Advances (it.evalWith n id) := by
  induction n generalizing it id with
  | zero => exact .throw _
  | succ n ih =>
    rw [evalWith_succ]
    unfold evalStep
    split
    · exact (Advances.ofLookup _).bind fun node => advances_evalNode ih n it node
    · exact .pure _

end Interpreter

namespace Activation

variable {τ σ : Activation} {done : List Activation}

theorem onward_run (τ : Activation) : τ.state.Onward τ.run.state :=
  Interpreter.advances_evalWith τ.fuel τ.it τ.id τ.state

/-- The evaluation `σ` lies inside `τ` and after the evaluations in the list. -/
structure Within (τ : Activation) (done : List Activation) (σ : Activation) : Prop where
  before : τ.state.Onward σ.state
  after : σ.run.state.Onward τ.run.state
  done : ∀ δ ∈ done, τ.state.Onward δ.state ∧ δ.run.state.Onward σ.state

theorem Partway.onward {n : Nat} {it : Interpreter} {node : Node} {s t : State} {vs : List Value}
    (h : Partway n it node s done vs t) :
    s.Onward t ∧ ∀ δ ∈ done, s.Onward δ.state ∧ δ.run.state.Onward t := by
  induction h with
  | start => exact ⟨.refl s, by simp⟩
  | @next done vs t u j v _ _ given ih =>
    obtain ⟨hst, hdone⟩ := ih
    have hrun : run ⟨n, it, j, t⟩ = .ok v u := given
    have htu : t.Onward u := by
      have hpart := onward_run ⟨n, it, j, t⟩
      rwa [hrun] at hpart
    refine ⟨hst.trans htu, List.forall_mem_append.mpr ⟨fun δ hδ => ?_, ?_⟩⟩
    · exact ⟨(hdone δ hδ).1, (hdone δ hδ).2.trans htu⟩
    · rw [List.forall_mem_singleton, hrun]
      exact ⟨hst, .refl u⟩

theorem Enters.onward (h : Enters τ done σ) :
    τ.state.Onward σ.state ∧ ∀ δ ∈ done, τ.state.Onward δ.state ∧ δ.run.state.Onward σ.state := by
  cases h with
  | block hold => exact ⟨⟨Nat.le_refl _, [], rfl⟩, by simp⟩
  | @call n it id f span ids s t u done c vs scope hold hids all before opened =>
    obtain ⟨hst, hdone⟩ := before.onward
    have htu : t.Onward u := by
      have hopen := it.advances_openCall c vs t
      rwa [opened] at hopen
    exact ⟨hst.trans htu, fun δ hδ => ⟨(hdone δ hδ).1, (hdone δ hδ).2.trans htu⟩⟩

theorem Starts.within (h : Starts τ done σ) : Within τ done σ := by
  cases h with
  | @part n it id j node s t done vs hold before hj =>
    obtain ⟨hst, hdone⟩ := before.onward
    refine ⟨hst, ?_, hdone⟩
    rw [before.run_eq hold, Interpreter.evalAfter_next hj]
    exact EvalM.Advances.after
      (fun v => Interpreter.advances_evalAfter (Interpreter.advances_evalWith n) n it node _) _ _
  | enters h =>
    refine ⟨h.onward.1, ?_, h.onward.2⟩
    rw [h.run_eq]
    exact .refl _

/-- Evaluations inside an evaluation lie between its start and its end, one after the other. -/
theorem Visits.within (h : Visits τ done σ) : Within τ done σ := by
  induction h with
  | refl τ => exact ⟨.refl _, .refl _, by simp⟩
  | step starts _ ih =>
    have hfirst := starts.within
    refine ⟨hfirst.before.trans ih.before, ih.after.trans hfirst.after,
      List.forall_mem_append.mpr ⟨fun δ hδ => ?_, fun δ hδ => ?_⟩⟩
    · exact ⟨(hfirst.done δ hδ).1, (hfirst.done δ hδ).2.trans ih.before⟩
    · exact ⟨hfirst.before.trans (ih.done δ hδ).1, (ih.done δ hδ).2⟩

end Activation

end Treewalk
