import Treewalk.Proofs.Effects

/-! Lists of statements. A builder makes a chain of pairs from the statements that are there.
Evaluating the chain executes them from left to right: it stops at the first one that fails and
otherwise gives the value of the last. So the statements of a block that shares the scope around it
can stand in its place. -/

namespace Treewalk

namespace Interpreter

variable {it : Interpreter} {s : State} {r : Outcome Value} {v : Value} {id i j : NodeId}
  {ids xs ys zs : List NodeId}

/-! ### From left to right -/

/-- After a statement that gave `v`, executing the statements in their order ends in `r`. The first
one that fails is the last one executed; otherwise the last value is the value of the list. -/
inductive Executes (it : Interpreter) : List NodeId → Value → State → Outcome Value → Prop where
  | done {v : Value} {s : State} : Executes it [] v s (.ok v s)
  | next {i : NodeId} {rest : List NodeId} {v w : Value} {s t : State} {r : Outcome Value}
      (given : it.Ends i s (.ok w t)) (others : Executes it rest w t r) :
      Executes it (i :: rest) v s r
  | failed {i : NodeId} {rest : List NodeId} {v : Value} {cause : Halt} {s t : State}
      (fails : it.Ends i s (.error cause t)) : Executes it (i :: rest) v s (.error cause t)

theorem executes_nil : it.Executes [] v s r ↔ r = .ok v s := by
  constructor
  · rintro ⟨⟩
    rfl
  · rintro rfl
    exact .done

theorem executes_cons :
    it.Executes (i :: ids) v s r ↔
      (∃ w t, it.Ends i s (.ok w t) ∧ it.Executes ids w t r) ∨
        ∃ cause t, it.Ends i s (.error cause t) ∧ r = .error cause t := by
  constructor
  · intro h
    cases h with
    | next given others => exact .inl ⟨_, _, given, others⟩
    | failed fails => exact .inr ⟨_, _, fails, rfl⟩
  · rintro (⟨w, t, given, others⟩ | ⟨cause, t, fails, rfl⟩)
    · exact .next given others
    · exact .failed fails

theorem executes_singleton : it.Executes [i] v s r ↔ it.Ends i s r := by
  simp only [executes_cons, executes_nil]
  constructor
  · rintro (⟨w, t, given, rfl⟩ | ⟨cause, t, fails, rfl⟩)
    · exact given
    · exact fails
  · intro h
    cases r with
    | ok w t => exact .inl ⟨w, t, h, rfl⟩
    | error cause t => exact .inr ⟨cause, t, h, rfl⟩

/-- Where there is a statement, the value before it does not matter. -/
theorem executes_of_ne_nil (h : ids ≠ []) (v w : Value) :
    it.Executes ids v s r ↔ it.Executes ids w s r := by
  cases ids with
  | nil => exact absurd rfl h
  | cons i ids => rw [executes_cons, executes_cons]

/-- The statements of two lists are executed in turn. -/
theorem executes_append :
    it.Executes (xs ++ ys) v s r ↔
      (∃ w t, it.Executes xs v s (.ok w t) ∧ it.Executes ys w t r) ∨
        ∃ cause t, it.Executes xs v s (.error cause t) ∧ r = .error cause t := by
  induction xs generalizing v s with
  | nil =>
    rw [List.nil_append]
    constructor
    · exact fun h => .inl ⟨v, s, .done, h⟩
    · rintro (⟨w, t, ⟨⟩, h⟩ | ⟨cause, t, ⟨⟩, -⟩)
      exact h
  | cons i xs ih =>
    rw [List.cons_append]
    constructor
    · intro h
      cases h with
      | next given others =>
        rcases ih.mp others with ⟨w, t, first, rest⟩ | ⟨cause, t, first, rfl⟩
        · exact .inl ⟨w, t, .next given first, rest⟩
        · exact .inr ⟨cause, t, .next given first, rfl⟩
      | failed fails => exact .inr ⟨_, _, .failed fails, rfl⟩
    · rintro (⟨w, t, h, rest⟩ | ⟨cause, t, h, rfl⟩)
      · cases h with
        | next given first => exact .next given (ih.mpr (.inl ⟨w, t, first, rest⟩))
      · cases h with
        | next given first => exact .next given (ih.mpr (.inr ⟨cause, t, first, rfl⟩))
        | failed fails => exact .failed fails

/-- Statements in the middle of a list can be replaced by others that do the same. -/
theorem executes_congr (h : ∀ v s r, it.Executes xs v s r ↔ it.Executes ys v s r)
    (before after : List NodeId) :
    it.Executes (before ++ xs ++ after) v s r ↔ it.Executes (before ++ ys ++ after) v s r := by
  simp only [List.append_assoc, executes_append, h]

/-! ### Chains -/

theorem ends_seq_iff (hold : it.code.arena.Holds id (.seq i j)) :
    it.Ends id s r ↔ (∃ v t, it.Ends i s (.ok v t) ∧ it.Ends j t r) ∨
      ∃ cause t, it.Ends i s (.error cause t) ∧ r = .error cause t := by
  refine EvalM.Ends.iff_succ.trans (Iff.trans ?_ (EvalM.Ends.bind_iff
    (fun h => evalWith_below h it i) fun _ _ _ h => evalWith_below h it j))
  simp only [evalWith_holds hold]
  rfl

/-- A chain stands for the statements from left to right. -/
theorem ends_chain_iff (chain : it.code.arena.Chain ids id) :
    it.Ends id s r ↔ it.Executes ids .null s r := by
  induction ids generalizing id s with
  | nil =>
    obtain rfl : id = .absent := chain
    rw [executes_nil]
    exact EvalM.Ends.iff_eq (it.ends_absent NodeId.isPresent_absent s)
  | cons i ids ih =>
    cases ids with
    | nil =>
      obtain rfl : id = i := chain
      exact executes_singleton.symm
    | cons j ids =>
      obtain ⟨k, hold, rest⟩ := chain
      rw [ends_seq_iff hold, executes_cons]
      refine or_congr (exists₂_congr fun v t => and_congr_right fun _ => ?_) Iff.rfl
      exact (ih rest).trans (executes_of_ne_nil (List.cons_ne_nil j ids) .null v)

end Interpreter

/-! ### Lists that were built -/

/-- The statements were built and have the root `root` in the arena `a`: whatever was stored by then
is there, and no node of the list took the number that marks absent ones. -/
def Arena.Lists (a : Arena) (make : List (Option NodeId) → Build (Option NodeId))
    (statements : List (Option NodeId)) (root : Option NodeId) : Prop :=
  ∃ b b', make statements b = .ok root b' ∧ b'.arena.KeptIn a ∧
    (1 < (statements.filterMap id).length → b'.arena.size ≤ maxIndex)

theorem Arena.Lists.chain {a : Arena} {statements : List (Option NodeId)} {root : Option NodeId}
    (h : a.Lists Builder.seq statements root) :
    root.isSome = statements.any Option.isSome ∧
      a.Chain (statements.filterMap id) (.ofOption root) := by
  obtain ⟨b, b', hrun, kept, fits⟩ := h
  rcases Builder.seq_run statements b with ⟨_, _, herror, -⟩ | ⟨_, _, hok, hroot, -, chain⟩
  · cases hrun.symm.trans herror
  · cases hrun.symm.trans hok
    exact ⟨hroot, chain a fits kept⟩

/-- The statements of a block do what its root does, if it has one. -/
theorem Arena.Lists.executes_iff {it : Interpreter} {statements : List (Option NodeId)}
    {root : Option NodeId} (h : it.code.arena.Lists Builder.block statements root) (v : Value)
    (s : State) (r : Outcome Value) :
    it.Executes root.toList v s r ↔ it.Executes (statements.filterMap id) v s r := by
  obtain ⟨hroot, chain⟩ := Arena.Lists.chain h
  rw [Builder.any_isSome_eq] at hroot
  cases root with
  | none =>
    have hnil : statements.filterMap id = [] := by simpa using hroot
    rw [hnil]
    rfl
  | some i =>
    have hne : statements.filterMap id ≠ [] := by simpa using hroot
    rw [Option.toList_some, Interpreter.executes_singleton,
      Interpreter.executes_of_ne_nil hne v .null]
    exact Interpreter.ends_chain_iff chain

/-- Lists of statements mean their execution from left to right. A list is built unless the table of
nodes has no room for a node for each statement that is there but one; it has no root exactly if no
statement is there, and it changes nothing of what was stored before. In every arena that still
holds it, unless a node of it took the number that marks absent ones, its root ends in what the
statements that are there end in, executed in their order. So a block inside a list can be replaced
by its statements. -/
theorem statements_left_to_right {make : List (Option NodeId) → Build (Option NodeId)}
    (hmake : make ∈ [Builder.seq, Builder.program, Builder.block]) :
    (∀ statements b,
      (∃ refusal b', make statements b = .error refusal b' ∧ refusal.TableFull ∧
        maxIndex + 1 < b.arena.size + ((statements.filterMap id).length - 1)) ∨
      ∃ root b', make statements b = .ok root b' ∧
        (root = none ↔ ∀ entry ∈ statements, entry = none) ∧
        b.Appended ((statements.filterMap id).length - 1) b') ∧
    (∀ (it : Interpreter) statements root, it.code.arena.Lists make statements root →
      ∀ s r, it.Ends (.ofOption root) s r ↔ it.Executes (statements.filterMap id) .null s r) ∧
    ∀ (it : Interpreter) xs ys zs block root root',
      it.code.arena.Lists Builder.block ys block →
      it.code.arena.Lists make (xs ++ [block] ++ zs) root →
      it.code.arena.Lists make (xs ++ ys ++ zs) root' →
      ∀ s r, it.Ends (.ofOption root) s r ↔ it.Ends (.ofOption root') s r := by
  obtain rfl : make = Builder.seq := by
    simp only [List.mem_cons, List.not_mem_nil, or_false] at hmake
    rcases hmake with rfl | rfl | rfl <;> rfl
  have hends : ∀ (it : Interpreter) statements root,
      it.code.arena.Lists Builder.seq statements root →
        ∀ s r, it.Ends (.ofOption root) s r ↔ it.Executes (statements.filterMap id) .null s r :=
    fun it statements root h s r => Interpreter.ends_chain_iff h.chain.2
  refine ⟨fun statements b => ?_, hends, ?_⟩
  · rcases Builder.seq_run statements b with full | ⟨root, b', hok, hroot, app, -⟩
    · exact .inl full
    · refine .inr ⟨root, b', hok, ?_, app⟩
      rw [← Option.not_isSome_iff_eq_none, hroot]
      simp
  · intro it xs ys zs block root root' hblock hroot hroot' s r
    have hmiddle : [block].filterMap id = block.toList := by cases block <;> rfl
    rw [hends it _ _ hroot, hends it _ _ hroot']
    simp only [List.filterMap_append, hmiddle]
    exact Interpreter.executes_congr hblock.executes_iff _ _

/-- A block in the middle of a list, beside the list of all statements. Some entries are missing and
one stands for an absent node. -/
theorem statements_left_to_right_block :
    let a : Arena := ⟨#[.int 7, .print ⟨0⟩, .bool true], #[], #[]⟩
    ∃ b₁ b₂ b₃ : Builder, ∃ t : State,
      Builder.block [none, some ⟨1⟩, some .absent] ⟨.initial, a⟩ = .ok (some ⟨3⟩) b₁ ∧
      Builder.seq ([some ⟨1⟩] ++ [some ⟨3⟩] ++ [some ⟨2⟩, none]) b₁ = .ok (some ⟨5⟩) b₂ ∧
      Builder.seq ([some ⟨1⟩] ++ [none, some ⟨1⟩, some .absent] ++ [some ⟨2⟩, none]) b₂ =
        .ok (some ⟨8⟩) b₃ ∧
      let it : Interpreter := { names := .initial, code := ⟨0, b₃.arena⟩, env := 0 }
      it.Ends ⟨5⟩ {} (.ok (.bool true) t) ∧ it.Ends ⟨8⟩ {} (.ok (.bool true) t) ∧
        t.sink.lines = ["7", "7"] := by
  intro a
  let add (a : Arena) (node : Node) : Arena := { a with nodes := a.nodes.push node }
  let b₁ : Builder := ⟨.initial, add a (.seq ⟨1⟩ .absent)⟩
  let b₂ : Builder := ⟨.initial, add (add b₁.arena (.seq ⟨3⟩ ⟨2⟩)) (.seq ⟨1⟩ ⟨4⟩)⟩
  let b₃ : Builder :=
    ⟨.initial, add (add (add b₂.arena (.seq .absent ⟨2⟩)) (.seq ⟨1⟩ ⟨6⟩)) (.seq ⟨1⟩ ⟨7⟩)⟩
  have kept₂ : b₂.arena.KeptIn b₃.arena :=
    ((Arena.KeptIn.push _ _).trans (.push _ _)).trans (.push _ _)
  have kept₁ : b₁.arena.KeptIn b₃.arena :=
    ((Arena.KeptIn.push _ _).trans (.push _ _)).trans kept₂
  let it : Interpreter := { names := .initial, code := ⟨0, b₃.arena⟩, env := 0 }
  have hblock : it.code.arena.Lists Builder.block [none, some ⟨1⟩, some .absent] (some ⟨3⟩) :=
    ⟨⟨.initial, a⟩, b₁, rfl, kept₁, fun _ => by decide⟩
  have hroot : it.code.arena.Lists Builder.seq ([some ⟨1⟩] ++ [some ⟨3⟩] ++ [some ⟨2⟩, none])
      (some ⟨5⟩) := ⟨b₁, b₂, rfl, kept₂, fun _ => by decide⟩
  have hroot' : it.code.arena.Lists Builder.seq
      ([some ⟨1⟩] ++ [none, some ⟨1⟩, some .absent] ++ [some ⟨2⟩, none]) (some ⟨8⟩) :=
    ⟨b₂, b₃, rfl, .refl _, fun _ => by decide⟩
  have ends : it.Ends ⟨5⟩ {} (.ok (.bool true) ⟨{}, .buffer #["7", "7"]⟩) :=
    Interpreter.ends_of_evalWith (n := 6) rfl trivial
  have transparent := (@statements_left_to_right Builder.seq (by simp)).2.2
  have ends' := (transparent it _ _ _ _ _ _ hblock hroot hroot' {} _).mp ends
  exact ⟨b₁, b₂, b₃, _, rfl, rfl, rfl, ends, ends', rfl⟩

end Treewalk
