import Treewalk.Proofs.Construction
import Treewalk.Proofs.Muting

/-! Growth of arenas. Whatever is stored in an arena stays under its number or span when more is
stored later, also by calls that are refused in the end. So evaluation over the grown arena ends as
it did over the smaller one, unless that one was read outside its tables. -/

namespace Treewalk

/-! ### Allocations -/

/-- The state that a step left, whether or not it was refused. -/
def Refusal.after {σ α : Type} (m : EStateM Refusal σ α) (s : σ) : σ :=
  match m s with
  | .ok _ s' => s'
  | .error _ s' => s'

/-- A list that is refused for its length is in the table like any other. -/
theorem Span.after_append {α : Type} (tableFull tooLong : Nat → Refusal) (entries : List α)
    (table : Array α) :
    Refusal.after (Span.append tableFull tooLong entries) table =
      if table.size ≤ maxIndex then table ++ entries else table := by
  by_cases room : table.size ≤ maxIndex
  · by_cases short : entries.length ≤ maxListLength <;>
      simp [Refusal.after, Span.append, room, short]
  · simp [Refusal.after, Span.append, room]

theorem Span.slice?_after_append {α : Type} {s : Span} {table : Array α} {stored : List α}
    (tableFull tooLong : Nat → Refusal) (entries : List α) (h : s.slice? table = some stored) :
    s.slice? (Refusal.after (Span.append tableFull tooLong entries) table) = some stored := by
  rw [Span.after_append]
  split
  · exact Span.slice?_append entries h
  · exact h

namespace Arena

/-- What a call may ask an arena to store. -/
inductive Allocation where
  | node (stored : Node)
  | arguments (ids : List NodeId)
  | parameters (xs : List Name)
deriving DecidableEq

/-- The arena that a call leaves, whether or not it is refused. -/
def Allocation.perform (a : Arena) : Allocation → Arena
  | .node stored => Refusal.after (allocNode stored) a
  | .arguments ids => Refusal.after (allocArguments ids) a
  | .parameters xs => Refusal.after (allocParameters xs) a

/-- The arena after calls, one after the other. -/
def grow (a : Arena) (steps : List Allocation) : Arena := steps.foldl Allocation.perform a

theorem after_allocNode (stored : Node) (a : Arena) :
    Refusal.after (allocNode stored) a =
      if a.size ≤ maxIndex then { a with nodes := a.nodes.push stored } else a := by
  by_cases room : a.nodes.size ≤ maxIndex <;> simp [Refusal.after, allocNode, size, room]

theorem after_allocArguments (ids : List NodeId) (a : Arena) :
    Refusal.after (allocArguments ids) a =
      { a with arguments :=
          Refusal.after (Span.append .argumentEntries .arguments ids) a.arguments } := by
  simp only [Refusal.after, allocArguments]
  cases Span.append .argumentEntries .arguments ids a.arguments <;> rfl

theorem after_allocParameters (xs : List Name) (a : Arena) :
    Refusal.after (allocParameters xs) a =
      { a with parameters :=
          Refusal.after (Span.append .parameterEntries .parameters xs) a.parameters } := by
  simp only [Refusal.after, allocParameters]
  cases Span.append .parameterEntries .parameters xs a.parameters <;> rfl

namespace KeptIn

/-- One call keeps what was stored before it. -/
theorem perform (a : Arena) (step : Allocation) : a.KeptIn (step.perform a) := by
  cases step with
  | node stored =>
    simp only [Allocation.perform, after_allocNode]
    split
    · exact push a stored
    · exact refl a
  | arguments ids =>
    simp only [Allocation.perform, after_allocArguments]
    exact ⟨fun _ _ h => h, fun _ _ h => Span.slice?_after_append _ _ ids h, fun _ _ h => h⟩
  | parameters xs =>
    simp only [Allocation.perform, after_allocParameters]
    exact ⟨fun _ _ h => h, fun _ _ h => h, fun _ _ h => Span.slice?_after_append _ _ xs h⟩

/-- However an arena grows, it keeps what was stored before. -/
theorem grow (a : Arena) (steps : List Allocation) : a.KeptIn (a.grow steps) := by
  induction steps generalizing a with
  | nil => exact refl a
  | cons step steps ih => exact (perform a step).trans (ih (step.perform a))

end KeptIn

end Arena

/-! ### Runs over grown arenas -/

/-- Where what is found stays found, look-ups differ at most where nothing was found. -/
theorem none_or_eq_of_kept {α : Type} {o₁ o₂ : Option α}
    (kept : ∀ x, o₁ = some x → o₂ = some x) : o₁ = none ∨ o₁ = o₂ := by
  cases ho : o₁ with
  | none => exact .inl rfl
  | some x => exact .inr (kept x ho).symm

/-- How a run over the arena `a` compares with one over an arena `b` that holds all that `a` does:
the first one may stop where it reads outside its tables. -/
def growing {a b : Code} (kept : a.arena.KeptIn b.arena) : Simulation where
  __ := Simulation.identity
  code := Code.Replaced a b
  excused cause := cause = .fault
  node := by
    rintro code₁ code₂ replaced id
    have hnode : code₁.arena.node? id = none ∨ code₁.arena.node? id = code₂.arena.node? id := by
      rcases replaced with rfl | ⟨rfl, rfl⟩
      · exact .inr rfl
      · exact none_or_eq_of_kept (kept.nodes id)
    refine hnode.imp (fun absent => ⟨rfl, absent⟩) fun same => ?_
    exact (Option.Rel.of_eq same).imp fun node _ hnode => hnode ▸ .same fun _ _ _ => rfl
  arguments := by
    rintro code₁ code₂ (rfl | ⟨rfl, rfl⟩) span
    · exact .inr rfl
    · exact (none_or_eq_of_kept (kept.arguments span)).imp_left fun absent => ⟨rfl, absent⟩
  parameters := by
    rintro code₁ code₂ (rfl | ⟨rfl, rfl⟩) span
    · exact .inr rfl
    · exact (none_or_eq_of_kept (kept.parameters span)).imp_left fun absent => ⟨rfl, absent⟩
  overflow := .inl rfl

/-- Later allocations do not change the meaning of what is already built. Let the arena of `b` grow
out of that of `a` by any calls, and take stores that are equal but for closures that carry `b` in
the place of `a`. If an expression ends over `a`, and not by a read outside of the tables, it ends
over `b` with the same result, and the same store, again but for `b` in the place of `a`, after
printing the same lines. -/
theorem growth_keeps_meaning {a b : Code} {steps : List Arena.Allocation}
    (grown : b.arena = a.arena.grow steps) {s₁ s₂ : Store} (stores : s₁.Replaced a b s₂)
    (it : Interpreter) (id : NodeId) (k₁ k₂ : Sink) {r₁ : Outcome Value}
    (ends : Interpreter.Ends { it with code := a } id ⟨s₁, k₁⟩ r₁)
    (inside : ∀ t, r₁ ≠ .error .fault t) :
    ∃ r₂, Interpreter.Ends { it with code := b } id ⟨s₂, k₂⟩ r₂ ∧
      r₁.Alike (Value.Alike (Closure.Alike Eq (Code.Replaced a b))) r₂ ∧
      r₁.state.store.Replaced a b r₂.state.store ∧
      ∃ out : List String,
        r₁.state.sink = out.foldl Sink.writeLine k₁ ∧
        r₂.state.sink = out.foldl Sink.writeLine k₂ := by
  let S : Simulation := growing (grown ▸ Arena.KeptIn.grow a.arena steps)
  have same : S.SameScope { it with code := a } { it with code := b } :=
    ⟨⟨rfl, rfl, rfl⟩, rfl, .inr ⟨rfl, rfl⟩⟩
  have start : S.Holds s₁ s₂ := ⟨stores.toAlike, fun k => congrArg (· + k) stores.nextClosure⟩
  have store : ∀ t₁ t₂, S.Holds t₁ t₂ → t₁.Replaced a b t₂ := fun t₁ t₂ holds =>
    ⟨holds.stores, holds.nextClosure 0⟩
  have unexcused : ∀ cause t, r₁ = .error cause t → ¬ S.excused cause := by
    rintro _ t hr rfl
    exact inside t hr
  obtain ⟨r₂, ends₂, together⟩ := start.forth same ends unexcused
  refine ⟨r₂, ends₂, ?_⟩
  cases together with
  | ok out _ holds printed hv =>
    obtain rfl : out = _ := printed
    exact ⟨.ok hv, store _ _ holds, out, rfl, rfl⟩
  | error out _ holds printed =>
    obtain rfl : out = _ := printed
    exact ⟨.error, store _ _ holds, out, rfl, rfl⟩
  | excuse excused => exact absurd excused (unexcused _ _ rfl)

/-- A closure that prints its argument, called over an arena and over what it grew to. -/
theorem growth_keeps_meaning_called :
    let a : Code := ⟨0, ⟨#[.int 1, .ident .empty, .print ⟨1⟩, .call ⟨1⟩ ⟨0, 1⟩], #[⟨0⟩], #[]⟩⟩
    let steps : List Arena.Allocation := [.parameters [.empty], .arguments [⟨1⟩], .node (.int 2)]
    let b : Code := ⟨1, a.arena.grow steps⟩
    let bound (code : Code) : Scope :=
      { bindings := [(.empty, .closure ⟨0, [.empty], ⟨2⟩, 0, code⟩)] }
    let store (code : Code) : Store := ⟨#[bound code], 1, 2⟩
    let it : Interpreter := { names := .initial, code := a, env := 0 }
    (∃ t, it.Ends ⟨3⟩ ⟨store a, .buffer #[]⟩ (.ok (.int 1) t) ∧ t.sink.lines = ["1"]) ∧
      ∃ t, Interpreter.Ends { it with code := b } ⟨3⟩ ⟨store b, .buffer #[]⟩ (.ok (.int 1) t) ∧
        t.sink.lines = ["1"] := by
  intro a steps b bound store it
  have hrun : it.evalWith 5 ⟨3⟩ ⟨store a, .buffer #[]⟩ =
      .ok (.int 1) ⟨((store a).child 0).2.bind 1 .empty (.int 1), .buffer #["1"]⟩ := by
    with_unfolding_all rfl
  have hends := Interpreter.ends_of_evalWith hrun trivial
  have stores : (store a).Replaced a b (store b) := by
    refine ⟨⟨rfl, fun e => ?_, rfl⟩, rfl⟩
    cases e with
    | zero => exact ⟨rfl, .cons ⟨rfl, .closure ⟨rfl, rfl, rfl, rfl, .inr ⟨rfl, rfl⟩⟩⟩ .nil⟩
    | succ e => exact ⟨rfl, .nil⟩
  obtain ⟨r, hgrown, hresult, -, out, hbefore, hafter⟩ :=
    growth_keeps_meaning (rfl : b.arena = _) stores it ⟨3⟩ (.buffer #[]) (.buffer #[]) hends
      fun _ => nofun
  cases hresult with
  | ok hv =>
    cases hv
    refine ⟨⟨_, hends, rfl⟩, _, hgrown, ?_⟩
    exact congrArg Sink.lines (hafter.trans hbefore.symm)

end Treewalk
