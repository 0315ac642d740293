import Treewalk.Proofs.Simulation

/-! Printing only observes. Any prints of an arena can be muted: only the operand is left, in the
place of the print. Evaluation over the muted arena ends as it does over the whole one, with the
same result and the same store, and it prints some of the same lines in the same order. -/

namespace Treewalk

/-! ### Muted arenas -/

/-- The node without what it prints: of a print only the operand is left. -/
def Node.muted : Node → Node
  | .print e => .seq .absent e
  | node => node

theorem Node.muted_ne_print (node : Node) (e : NodeId) : node.muted ≠ .print e := by
  cases node <;> simp [muted]

namespace Arena

/-- The arena in which the nodes at the chosen places are muted. -/
def mute (a : Arena) (chosen : Nat → Bool) : Arena :=
  { a with nodes := a.nodes.mapIdx fun i node => if chosen i then node.muted else node }

/-- Every print of the arena is at a chosen place. -/
def AllChosen (a : Arena) (chosen : Nat → Bool) : Prop :=
  ∀ id e, a.node? id = some (.print e) → chosen id.index = true

variable {a : Arena} {chosen : Nat → Bool}

theorem node?_mute (a : Arena) (chosen : Nat → Bool) (id : NodeId) :
    (a.mute chosen).node? id =
      (a.node? id).map fun node => if chosen id.index then node.muted else node :=
  Array.getElem?_mapIdx

/-- With every print chosen no print is left. -/
theorem AllChosen.node?_mute_ne (all : a.AllChosen chosen) (id e : NodeId) :
    (a.mute chosen).node? id ≠ some (.print e) := by
  intro h
  rw [node?_mute, Option.map_eq_some_iff] at h
  obtain ⟨node, hnode, hprint⟩ := h
  by_cases hchosen : chosen id.index = true
  · rw [if_pos hchosen] at hprint
    exact node.muted_ne_print e hprint
  · rw [if_neg hchosen] at hprint
    exact hchosen (all id e (by rw [hnode, hprint]))

end Arena

/-! ### Runs over muted arenas -/

/-- The arenas are the same one, or `b` stands in the place of `a`. -/
def Code.Replaced (a b : Code) (code₁ code₂ : Code) : Prop := code₁ = code₂ ∨ code₁ = a ∧ code₂ = b

/-- The stores are equal, but closures that carry `a` in the first may carry `b` in the second. -/
structure Store.Replaced (a b : Code) (s₁ s₂ : Store) : Prop extends
    s₁.Alike (Value.Alike (Closure.Alike Eq (Code.Replaced a b))) s₂ where
  nextClosure : s₁.nextClosure = s₂.nextClosure

section Muting

variable {a b : Code} {chosen : Nat → Bool}

theorem Node.matches_muted {lines : List String → List String → Prop} (node : Node) (mute : Bool)
    (skipped : ∀ v : Value, lines [v.display] [])
    (audible : ∀ e, node = .print e → mute = false → ∀ v : Value, lines [v.display] [v.display]) :
    node.Matches lines (if mute then node.muted else node) := by
  cases mute with
  | false => exact .same fun e he => audible e he rfl
  | true =>
    cases node with
    | print e => exact .muted skipped
    | _ => exact .same fun e he => nomatch he

/-- How a run over the whole arena `a` compares with one over the muted arena `b`. If the second run
is silent, it has no other arena than `b`, in which every print is muted. -/
def muting (silent : Prop) (hb : b.arena = a.arena.mute chosen)
    (all : silent → a.arena.AllChosen chosen) : Simulation where
  __ := Simulation.identity
  code code₁ code₂ := Code.Replaced a b code₁ code₂ ∧ (silent → code₂ = b)
  lines out₁ out₂ := out₂.Sublist out₁ ∧ (silent → out₂ = [])
  lines_nil := ⟨.refl _, fun _ => rfl⟩
  lines_append h h' := by
    refine ⟨h.1.append h'.1, fun hsilent => ?_⟩
    rw [h.2 hsilent, h'.2 hsilent]
    rfl
  node := by
    rintro code₁ code₂ ⟨rfl | ⟨rfl, rfl⟩, only⟩ id
    · cases hnode : code₁.arena.node? id with
      | none => exact .inr .none
      | some node =>
        refine .inr (.some (.same ?_))
        rintro e rfl v
        refine ⟨.refl _, fun hsilent => ?_⟩
        rw [only hsilent, hb] at hnode
        exact absurd hnode ((all hsilent).node?_mute_ne id e)
    · rw [hb, Arena.node?_mute]
      cases hnode : code₁.arena.node? id with
      | none => exact .inr .none
      | some node =>
        refine .inr (.some (node.matches_muted _ (fun v => ⟨List.nil_sublist _, fun _ => rfl⟩) ?_))
        rintro e rfl kept v
        refine ⟨.refl _, fun hsilent => ?_⟩
        rw [all hsilent id e hnode] at kept
        cases kept
  arguments := by
    rintro code₁ code₂ ⟨rfl | ⟨rfl, rfl⟩, _⟩ span
    · exact .inr rfl
    · exact .inr (by rw [hb]; rfl)
  parameters := by
    rintro code₁ code₂ ⟨rfl | ⟨rfl, rfl⟩, _⟩ span
    · exact .inr rfl
    · exact .inr (by rw [hb]; rfl)

end Muting

/-- Printing only observes. Let `b` be the arena `a` with prints at any chosen places muted. From
stores that are equal but for closures that carry `b` in the place of `a`, an expression ends over
the one exactly if it ends over the other. The results are then the same and so are the stores,
again but for `b` in the place of `a`, and the lines printed over `b` are some of those printed over
`a`, in their order. There are none if all prints were chosen and all closures of the second store
carry `b`. -/
theorem printing_only_observes {a b : Code} {chosen : Nat → Bool}
    (muted : b.arena = a.arena.mute chosen) {s₁ s₂ : Store} (stores : s₁.Replaced a b s₂)
    (it : Interpreter) (id : NodeId) (k₁ k₂ : Sink) :
    EndAlike
      (fun r₁ r₂ =>
        r₁.Alike (Value.Alike (Closure.Alike Eq (Code.Replaced a b))) r₂ ∧
        r₁.state.store.Replaced a b r₂.state.store ∧
        ∃ out₁ out₂ : List String, out₂.Sublist out₁ ∧
          r₁.state.sink = out₁.foldl Sink.writeLine k₁ ∧
          r₂.state.sink = out₂.foldl Sink.writeLine k₂ ∧
          (a.arena.AllChosen chosen →
            (∀ e x c, (x, .closure c) ∈ (s₂.scope e).bindings → c.code = b) → out₂ = []))
      (Interpreter.Ends { it with code := a } id ⟨s₁, k₁⟩)
      (Interpreter.Ends { it with code := b } id ⟨s₂, k₂⟩) := by
  let silent : Prop := a.arena.AllChosen chosen ∧
    ∀ e x c, (x, .closure c) ∈ (s₂.scope e).bindings → c.code = b
  let S : Simulation := muting silent muted fun hsilent => hsilent.1
  have same : S.SameScope { it with code := a } { it with code := b } :=
    ⟨⟨rfl, rfl, rfl⟩, rfl, .inr ⟨rfl, rfl⟩, fun _ => rfl⟩
  have start : S.Holds s₁ s₂ := by
    refine ⟨stores.toAlike.mono fun e x v w hw hv => ?_,
      fun k => congrArg (· + k) stores.nextClosure⟩
    cases hv with
    | closure hc => exact .closure { hc with code := ⟨hc.code, fun hsilent => hsilent.2 e x _ hw⟩ }
    | int => exact .int
    | bool => exact .bool
    | null => exact .null
  have value : ∀ v w, S.SameValue v w → Value.Alike (Closure.Alike Eq (Code.Replaced a b)) v w :=
    fun v w hv => hv.mono fun _ _ hc => { hc with code := hc.code.1 }
  have store : ∀ t₁ t₂, S.Holds t₁ t₂ → t₁.Replaced a b t₂ := fun t₁ t₂ holds =>
    ⟨holds.stores.mono fun _ _ v w _ => value v w, holds.nextClosure 0⟩
  refine (start.endAlike same (fun _ => not_false) id k₁ k₂).mono fun r₁ r₂ together => ?_
  cases together with
  | ok out₁ out₂ holds printed hv =>
    exact ⟨.ok (value _ _ hv), store _ _ holds, out₁, out₂, printed.1, rfl, rfl,
      fun all only => printed.2 ⟨all, only⟩⟩
  | error out₁ out₂ holds printed =>
    exact ⟨.error, store _ _ holds, out₁, out₂, printed.1, rfl, rfl,
      fun all only => printed.2 ⟨all, only⟩⟩
  | excuse excused => exact excused.elim

/-- A closure that prints, called from an expression that prints its result, beside the same with
all prints muted. -/
theorem printing_only_observes_called :
    let a : Code :=
      ⟨0, ⟨#[.int 1, .print ⟨0⟩, .ident .empty, .call ⟨2⟩ .empty, .print ⟨3⟩], #[], #[]⟩⟩
    let b : Code := ⟨1, a.arena.mute fun _ => true⟩
    let bound (code : Code) : Scope := { bindings := [(.empty, .closure ⟨0, [], ⟨1⟩, 0, code⟩)] }
    let store (code : Code) : Store := ⟨#[bound code], 1, 2⟩
    let it : Interpreter := { names := .initial, code := a, env := 0 }
    (∃ t, it.Ends ⟨4⟩ ⟨store a, .buffer #[]⟩ (.ok (.int 1) t) ∧ t.sink.lines = ["1", "1"]) ∧
      ∃ t, Interpreter.Ends { it with code := b } ⟨4⟩ ⟨store b, .buffer #[]⟩ (.ok (.int 1) t) ∧
        t.sink.lines = [] := by
  intro a b bound store it
  have hrun : it.evalWith 5 ⟨4⟩ ⟨store a, .buffer #[]⟩ =
      .ok (.int 1) ⟨((store a).child 0).2, .buffer #["1", "1"]⟩ := by
    with_unfolding_all rfl
  have hends := Interpreter.ends_of_evalWith hrun trivial
  have stores : (store a).Replaced a b (store b) := by
    refine ⟨⟨rfl, fun e => ?_, rfl⟩, rfl⟩
    cases e with
    | zero => exact ⟨rfl, .cons ⟨rfl, .closure ⟨rfl, rfl, rfl, rfl, .inr ⟨rfl, rfl⟩⟩⟩ .nil⟩
    | succ e => exact ⟨rfl, .nil⟩
  have only : ∀ e x c, (x, .closure c) ∈ ((store b).scope e).bindings → c.code = b := by
    intro e x c hc
    cases e with
    | zero =>
      cases List.mem_singleton.mp hc
      rfl
    | succ e => cases hc
  have alike := printing_only_observes (rfl : b.arena = _) stores it ⟨4⟩ (.buffer #[]) (.buffer #[])
  obtain ⟨r, hmuted, hresult, -, _, out, -, -, hsink, hsilent⟩ := alike.forth _ hends
  cases hresult with
  | ok hv =>
    cases hv
    refine ⟨⟨_, hends, rfl⟩, _, hmuted, ?_⟩
    rw [hsilent (fun _ _ _ => rfl) only] at hsink
    exact congrArg Sink.lines hsink

end Treewalk
