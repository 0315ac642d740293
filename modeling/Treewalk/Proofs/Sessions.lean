import Treewalk.Proofs.Invariants

/-! Sessions: what a host program can bring about with stores, arenas and interpreters. Whatever it
does, every closure that it gets hold of, or that a scope binds, has its body in the arena that it
carries. -/

namespace Treewalk

/-- The value that the computation gave, if it gave one. -/
def Outcome.value? {α : Type} : Outcome α → Option α
  | .ok a _ => some a
  | .error _ _ => none

/-- The stores that a host program brings about, each with the values that it holds. It opens
scopes, reads and binds names, finishes arenas, makes closures over bodies of their arenas,
evaluates expressions, calls values and forgets values; and evaluations may also stop early. -/
inductive Session : Store → List Value → Prop where
  | start : Session {} []
  | global {s held} (h : Session s held) : Session s.global.2 held
  | child {s held} (h : Session s held) (e : ScopeId) : Session (s.child e).2 held
  | freeze {s held} (h : Session s held) (a : Arena) : Session (s.freeze a).2 held
  | forget {s held kept} (h : Session s held) (hkept : kept ⊆ held) : Session s kept
  | data {s held v} (h : Session s held) (hv : v.closure? = none) : Session s (v :: held)
  | resolve {s held e x v} (h : Session s held) (hv : s.resolve e x = some v) :
      Session s (v :: held)
  | closure {s held} {body : NodeId} {code : Code} (h : Session s held) (params : List Name)
      (e : ScopeId) (hbody : code.arena.Covers body) :
      Session (s.newClosure params body e code).2
        (.closure (s.newClosure params body e code).1 :: held)
  | declare {s held v} (h : Session s held) (hv : v ∈ held) (e : ScopeId) (x : Name) :
      Session (s.declare e x v).2 held
  | update {s held v} (h : Session s held) (hv : v ∈ held) (e : ScopeId) (x : Name) :
      Session (s.update e x v).2 held
  | eval {s held} (h : Session s held) (it : Interpreter) (id : NodeId) (n : Nat) (k : Sink) :
      Session (Outcome.state (it.evalWith n id ⟨s, k⟩)).store
        ((Outcome.value? (it.evalWith n id ⟨s, k⟩)).toList ++ held)
  | call {s held f args} (h : Session s held) (hvs : ∀ v ∈ f :: args, v ∈ held) (it : Interpreter)
      (n : Nat) (k : Sink) :
      Session (Outcome.state (it.callWith n f args ⟨s, k⟩)).store
        ((Outcome.value? (it.callWith n f args ⟨s, k⟩)).toList ++ held)

/-- The body of the closure is a node of its arena or absent, or it is the body of a literal
there. -/
def Closure.Proper (c : Closure) : Prop :=
  c.code.arena.Covers c.body ∨ ∃ id span, c.code.arena.node? id = some (.function span c.body)

/-- Evaluation makes only proper closures, whatever it evaluates. -/
def properness : Invariant Unit :=
  .ofClosures Closure.Proper (fun _ _ => True) (fun _ _ _ => trivial)
    (fun {_ id span _ _} _ hold _ _ _ => .inr ⟨id, span, hold.stored⟩) fun _ _ => trivial

namespace Session

variable {s : Store} {held : List Value}

/-- A computation that makes only proper closures gives a proper one, if it gives one. -/
theorem proper_after {m : EvalM Value} (keeps : properness.Keeps () s m properness.Knows)
    (hheld : ∀ v ∈ held, v.Meets Closure.Proper) (k : Sink) :
    (Outcome.state (m ⟨s, k⟩)).store.Meets Closure.Proper ∧
      ∀ v ∈ (Outcome.value? (m ⟨s, k⟩)).toList ++ held, v.Meets Closure.Proper := by
  obtain ⟨_, _, hstore, hresult⟩ := keeps k
  refine ⟨hstore, List.forall_mem_append.mpr ⟨fun v hv => ?_, hheld⟩⟩
  cases hm : m ⟨s, k⟩ with
  | ok w t =>
    rw [hm] at hv
    obtain rfl : v = w := by simpa [Outcome.value?] using hv
    exact hresult v t hm
  | error cause t => simp [hm, Outcome.value?] at hv

/-- In every session all closures are proper, those that are bound and those that are held. -/
theorem closures_proper (h : Session s held) :
    s.Meets Closure.Proper ∧ ∀ v ∈ held, v.Meets Closure.Proper := by
  induction h with
  | start => exact ⟨.empty, by simp⟩
  | global _ ih => exact ⟨ih.1.global, ih.2⟩
  | child _ e ih => exact ⟨ih.1.child e, ih.2⟩
  | freeze _ a ih => exact ih
  | forget _ hkept ih => exact ⟨ih.1, fun v hv => ih.2 v (hkept hv)⟩
  | data _ hv ih => exact ⟨ih.1, List.forall_mem_cons.mpr ⟨.of_closure? hv, ih.2⟩⟩
  | resolve _ hv ih => exact ⟨ih.1, List.forall_mem_cons.mpr ⟨ih.1.resolve hv, ih.2⟩⟩
  | closure _ params e hbody ih =>
    refine ⟨ih.1, List.forall_mem_cons.mpr ⟨?_, ih.2⟩⟩
    rintro c ⟨⟩
    exact .inl hbody
  | declare _ hv e x ih => exact ⟨ih.1.declare (ih.2 _ hv) e x, ih.2⟩
  | update _ hv e x ih => exact ⟨ih.1.update (ih.2 _ hv) e x, ih.2⟩
  | eval _ it id n k ih => exact proper_after (properness.evaluates_evalWith n ih.1 trivial) ih.2 k
  | call _ hvs it n k ih =>
    have hknown := List.forall_mem_cons.mp fun v hv => ih.2 v (hvs v hv)
    exact proper_after (properness.keeps_callWith n it ih.1 hknown.1 hknown.2) ih.2 k

end Session

end Treewalk
