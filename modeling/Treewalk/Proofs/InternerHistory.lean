import Treewalk.Proofs.Enclosure
import Treewalk.Proofs.ParallelConstruction
import Treewalk.Proofs.SideBySide

/-! What was interned earlier does not matter. A program built and run over two interners with
different histories gets the same numbers for its nodes and behaves the same, up to the numbers of
its names. -/

namespace Treewalk

/-- The closures have the same identity, parameters with the same text, the same body and captured
scopes with the same number and depth. -/
structure Closure.SameText (names₁ names₂ : Interner) (s₁ s₂ : Store) (c₁ c₂ : Closure) : Prop where
  id : c₁.id = c₂.id
  params : List.Forall₂ (names₁.SameText names₂) c₁.params c₂.params
  body : c₁.body = c₂.body
  env : c₁.env = c₂.env
  depth : s₁.depth c₁.env = s₂.depth c₂.env

/-- A program that binds only names with the text of a name elsewhere does not bind a string that
is not known there. -/
theorem local?_of_unknown {names other : Interner} (wf : names.WellFormed) (wf' : other.WellFormed)
    {k : Sink} {s : Store}
    (alters : (State.start k).store.Alters (fun _ x => ∃ y, names.SameText other x y) s)
    {p : String} {x : Name} (known : names.find? p = some x) (unknown : other.find? p = none)
    (e : ScopeId) : s.local? e x = none := by
  rw [alters.spared e x, State.local?_start]
  rintro ⟨y, q, hx, hy⟩
  obtain rfl : p = q := Option.some.inj (((wf p x).mp known).symm.trans hx)
  rw [(wf' p y).mpr hy] at unknown
  cases unknown

namespace Builder.Alike

variable {b₁ b₂ : Builder}

/-- The arenas of the two builders and the names with the same text. -/
def translation (h : b₁.Alike b₂) (founded : b₁.arena.Founded) : Translation :=
  .ofArenas h.wf₁ h.wf₂ (fun c₁ c₂ => c₁.arena = b₁.arena ∧ c₂.arena = b₂.arena)
    (fun shared => by rw [shared.1]; exact founded)
    fun shared => by rw [shared.1, shared.2]; exact h.arena

variable {h : b₁.Alike b₂} {founded : b₁.arena.Founded} {s₁ s₂ : Store} {k : Sink}

theorem holds_start :
    (h.translation founded).Holds (State.start k).store (State.start k).store where
  parent e₁ e₂ _ := by
    rw [State.parent_start, State.parent_start]
    exact .none
  vars e₁ e₂ x₁ x₂ _ _ := by
    rw [State.local?_start, State.local?_start]
    exact .none
  nextScope _ := rfl
  nextClosure _ := rfl

theorem sameText (holds : (h.translation founded).Holds s₁ s₂) {v₁ v₂ : Value}
    (hv : (h.translation founded).SameValue v₁ v₂) :
    Value.Alike (Closure.SameText b₁.names b₂.names s₁ s₂) v₁ v₂ :=
  hv.mono fun _ _ hc => ⟨hc.id, hc.params, hc.body, hc.env, holds.depth_eq hc.env⟩

/-- A string that only one of the interners knows is bound nowhere. -/
theorem named?_alike (holds : (h.translation founded).Holds s₁ s₂)
    (later : (h.translation founded).Later (State.start k).store (State.start k).store s₁ s₂)
    (e : ScopeId) (p : String) :
    Option.Rel (Value.Alike (Closure.SameText b₁.names b₂.names s₁ s₂)) (s₁.named? b₁.names e p)
      (s₂.named? b₂.names e p) := by
  unfold Store.named?
  cases hx₁ : b₁.names.find? p with
  | none =>
    cases hx₂ : b₂.names.find? p with
    | none => exact .none
    | some x₂ =>
      have alters : (State.start k).store.Alters
          (fun _ x => ∃ y, b₂.names.SameText b₁.names x y) s₂ := by
        refine later.right.mono ?_
        rintro _ x ⟨_, y, q, hy, hx⟩
        exact ⟨y, q, hx, hy⟩
      rw [Option.bind_some, local?_of_unknown h.wf₂ h.wf₁ alters hx₂ hx₁ e]
      exact .none
  | some x₁ =>
    cases hx₂ : b₂.names.find? p with
    | none =>
      have alters := later.left.mono fun _ _ inside => inside.2
      rw [Option.bind_some, local?_of_unknown h.wf₁ h.wf₂ alters hx₁ hx₂ e]
      exact .none
    | some x₂ =>
      have hvars := holds.vars e e x₁ x₂ rfl ⟨p, (h.wf₁ p x₁).mp hx₁, (h.wf₂ p x₂).mp hx₂⟩
      exact hvars.imp fun _ _ hv => sameText holds hv

theorem corresponds {r₁ r₂ : Outcome Value}
    (together : (h.translation founded).Together (h.translation founded).SameValue
      (State.start k).store (State.start k).store k k r₁ r₂) :
    r₁.Corresponds b₁.names b₂.names (Closure.SameText b₁.names b₂.names) r₂ := by
  have vars := named?_alike together.holds together.later
  cases together with
  | ok lines holds later result => exact ⟨.ok (sameText holds result), rfl, vars⟩
  | error lines holds later stops => exact ⟨.error, rfl, vars⟩

end Builder.Alike

/-- The history of the interner does not matter. Unless one of two interners has no room left, a
list of trees is refused over both for the same reason, or it is built over both with the same root
in arenas of the same size; and then both programs, run from the start, end alike. -/
theorem interner_history (trees : List Term) {names₁ names₂ : Interner} (wf₁ : names₁.WellFormed)
    (wf₂ : names₂.WellFormed)
    (room₁ : ∀ n b, Tree.buildProgram Empty.elim trees ⟨names₁, {}⟩ ≠ .error (.strings n) b)
    (room₂ : ∀ n b, Tree.buildProgram Empty.elim trees ⟨names₂, {}⟩ ≠ .error (.strings n) b)
    (number₁ number₂ : Nat) (limit : Option Nat) (k : Sink) :
    (∃ refusal b₁ b₂, Tree.buildProgram Empty.elim trees ⟨names₁, {}⟩ = .error refusal b₁ ∧
      Tree.buildProgram Empty.elim trees ⟨names₂, {}⟩ = .error refusal b₂) ∨
    ∃ root b₁ b₂, Tree.buildProgram Empty.elim trees ⟨names₁, {}⟩ = .ok root b₁ ∧
      Tree.buildProgram Empty.elim trees ⟨names₂, {}⟩ = .ok root b₂ ∧
      b₁.arena.size = b₂.arena.size ∧
      EndAlike (Outcome.Corresponds b₁.names b₂.names (Closure.SameText b₁.names b₂.names))
        ((Interpreter.start b₁.names ⟨number₁, b₁.arena⟩ limit).Ends (.ofOption root) (.start k))
        ((Interpreter.start b₂.names ⟨number₂, b₂.arena⟩ limit).Ends (.ofOption root)
          (.start k)) := by
  have start : Builder.Alike ⟨names₁, {}⟩ ⟨names₂, {}⟩ := ⟨wf₁, wf₂, .empty⟩
  have hfill : ∀ h : Empty, (Empty.elim h : Build (Option NodeId)).Uniform := fun h => h.elim
  have agree : Build.Agree (fun _ _ => Eq) _ _ (Tree.buildProgram Empty.elim trees ⟨names₁, {}⟩)
      (Tree.buildProgram Empty.elim trees ⟨names₂, {}⟩) :=
    (Tree.build_uniform hfill (.seq trees)).agree start
  generalize h₁ : Tree.buildProgram Empty.elim trees ⟨names₁, {}⟩ = r₁ at agree room₁
  generalize h₂ : Tree.buildProgram Empty.elim trees ⟨names₂, {}⟩ = r₂ at agree room₂
  cases agree with
  | refused => exact .inl ⟨_, _, _, rfl, rfl⟩
  | full₁ => exact absurd rfl (room₁ _ _)
  | full₂ => exact absurd rfl (room₂ _ _)
  | @ok root _ b₁ b₂ alike _ _ same =>
    subst same
    obtain ⟨hfounded, hcovers⟩ := Tree.founded_of_buildProgram .empty h₁
    refine .inr ⟨root, b₁, b₂, rfl, rfl, alike.arena.size_eq, ?_⟩
    have side : (alike.translation hfounded).SameScope
        (Interpreter.start b₁.names ⟨number₁, b₁.arena⟩ limit)
        (Interpreter.start b₂.names ⟨number₂, b₂.arena⟩ limit) := ⟨⟨rfl, rfl, rfl, rfl⟩, rfl⟩
    have hroot : (alike.translation hfounded).expr ⟨number₁, b₁.arena⟩ ⟨number₂, b₂.arena⟩
        (.ofOption root) := ⟨⟨rfl, rfl⟩, hcovers⟩
    have ends := (Builder.Alike.holds_start (k := k)).endAlike side hroot k k
    exact ends.mono fun r₁ r₂ together => Builder.Alike.corresponds together

/-- A declaration over a new interner and over one that has met another string before. -/
theorem interner_history_declaration :
    ∃ b₁ b₂ : Builder, b₁.arena.nodes = #[.null, .declare ⟨1⟩ ⟨0⟩] ∧
      b₂.arena.nodes = #[.null, .declare ⟨2⟩ ⟨0⟩] ∧
      EndAlike (Outcome.Corresponds b₁.names b₂.names (Closure.SameText b₁.names b₂.names))
        ((Interpreter.start b₁.names ⟨0, b₁.arena⟩ none).Ends ⟨1⟩ (.start (.buffer #[])))
        ((Interpreter.start b₂.names ⟨0, b₂.arena⟩ none).Ends ⟨1⟩ (.start (.buffer #[]))) := by
  have hbuild : ∀ names : Interner, names.find? "a" = none → names.size ≤ maxIndex →
      Tree.buildProgram Empty.elim [.declare "a" .null] ⟨names, {}⟩ =
        .ok (some ⟨1⟩) ⟨names.push "a",
          ⟨#[.null, .declare ⟨.ofNat names.size⟩ ⟨0⟩], #[], #[]⟩⟩ := by
    intro names new room
    have hintern : ∀ a, Builder.intern "a" ⟨names, a⟩ =
        .ok ⟨.ofNat names.size⟩ ⟨names.push "a", a⟩ := by
      intro a
      simp only [Builder.intern, Builder.onNames, Interner.intern_of_find?_eq_none new room]
    simp only [Tree.buildProgram, Tree.buildAll, Tree.build, Builder.declare, Builder.null,
      Bind.bind, EStateM.bind, Functor.map, EStateM.map]
    simp [Builder.alloc, Builder.onArena, Arena.allocNode, hintern]
    rfl
  have new₁ : Interner.initial.find? "a" = none := by
    simp [Interner.initial, Interner.find?]
  have new₂ : (Interner.initial.push "b").find? "a" = none := by
    rw [Interner.find?_push, new₁]
    rfl
  have hbuild₁ := hbuild .initial new₁ (by decide)
  have hbuild₂ := hbuild (Interner.initial.push "b") new₂ (by decide)
  have wf₂ : (Interner.initial.push "b").WellFormed :=
    Interner.wellFormed_push Interner.wellFormed_initial
      (by simp [Interner.initial, Interner.find?]) (by decide)
  obtain ⟨_, _, _, refused, _⟩ | ⟨root, b₁, b₂, built₁, built₂, _, ends⟩ :=
    interner_history [.declare "a" .null] Interner.wellFormed_initial wf₂
      (by rw [hbuild₁]; rintro _ _ ⟨⟩) (by rw [hbuild₂]; rintro _ _ ⟨⟩) 0 0 none (.buffer #[])
  · cases hbuild₁.symm.trans refused
  · cases hbuild₁.symm.trans built₁
    cases hbuild₂.symm.trans built₂
    exact ⟨_, _, rfl, rfl, ends⟩

end Treewalk
