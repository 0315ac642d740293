import Mathlib.Data.List.Induction
import Treewalk.Proofs.Simulation
import Treewalk.Proofs.Visits

/-! Sinks only listen. An evaluation does the same whatever sink it prints to and whatever was
printed there before, and the lines that it prints can be read back from the text of a console: no
line contains a line break, because no value is shown with one. -/

namespace Treewalk

/-! ### Lines and their text -/

namespace Sink

theorem foldl_writeLine_buffer (lines : List String) (kept : Array String) :
    lines.foldl writeLine (buffer kept) = buffer (kept ++ lines) := by
  induction lines generalizing kept with
  | nil => simp
  | cons line lines ih => simp [writeLine, ih]

theorem foldl_writeLine_console (lines : List String) (written : String) :
    lines.foldl writeLine (console written) = console (written ++ textOf lines) := by
  induction lines using List.reverseRecOn with
  | nil => simp [textOf]
  | append_singleton lines line ih =>
    rw [List.foldl_append, ih, textOf_append_singleton]
    simp [writeLine, String.append_assoc]

theorem toList_textOf (lines : List String) :
    (textOf lines).toList = lines.flatMap fun line => line.toList ++ ['\n'] := by
  induction lines using List.reverseRecOn with
  | nil => rfl
  | append_singleton lines line ih => simp [textOf_append_singleton, ih]

/-- Lines without line breaks can be read back from their text. -/
theorem splitOn_textOf {lines : List String} (unbroken : ∀ line ∈ lines, '\n' ∉ line.toList) :
    (textOf lines).toList.splitOn '\n' = lines.map String.toList ++ [[]] := by
  rw [toList_textOf]
  induction lines with
  | nil => rfl
  | cons line lines ih =>
    rw [List.forall_mem_cons] at unbroken
    have hline : ∀ c ∈ line.toList, (c == '\n') = false := by
      rintro c hc
      exact beq_eq_false_iff_ne.mpr fun heq => unbroken.1 (heq ▸ hc)
    rw [List.flatMap_cons, List.append_assoc, List.singleton_append, List.splitOn,
      List.splitOnP_append_cons_of_forall_mem hline _ (by simp), ← List.splitOn, ih unbroken.2]
    rfl

theorem foldl_writeLine_buffer_inj {kept : Array String} {lines lines' : List String}
    (h : lines.foldl writeLine (buffer kept) = lines'.foldl writeLine (buffer kept)) :
    lines = lines' := by
  rw [foldl_writeLine_buffer, foldl_writeLine_buffer, buffer.injEq] at h
  have hlists := congrArg Array.toList h
  rw [Array.toList_appendList, Array.toList_appendList] at hlists
  exact List.append_cancel_left hlists

/-- What a sink holds tells which lines without line breaks were written to it. -/
theorem foldl_writeLine_inj {k : Sink} {lines lines' : List String}
    (unbroken : ∀ line ∈ lines, '\n' ∉ line.toList)
    (unbroken' : ∀ line ∈ lines', '\n' ∉ line.toList)
    (h : lines.foldl writeLine k = lines'.foldl writeLine k) : lines = lines' := by
  cases k with
  | buffer kept => exact foldl_writeLine_buffer_inj h
  | console written =>
    rw [foldl_writeLine_console, foldl_writeLine_console, console.injEq] at h
    have htext : textOf lines = textOf lines' := by simpa using h
    have hsplit := splitOn_textOf unbroken
    rw [htext, splitOn_textOf unbroken'] at hsplit
    have hchars : lines'.map String.toList = lines.map String.toList :=
      List.append_cancel_right hsplit
    exact (List.map_injective_iff.mpr (fun _ _ => String.toList_inj.mp) hchars).symm

end Sink

/-! ### Values are shown on one line -/

theorem newline_not_mem_toDigits (n : Nat) : '\n' ∉ Nat.toDigits 10 n := by
  intro h
  have hdigit := Nat.isDigit_of_mem_toDigits (by decide) (by decide) h
  exact absurd hdigit (by decide)

/-- No value is shown with a line break. -/
theorem Value.newline_not_mem_display (v : Value) : '\n' ∉ v.display.toList := by
  cases v with
  | int i =>
    show '\n' ∉ (Int.repr i.toInt).toList
    rw [Int.repr_eq_if]
    split
    · simp [newline_not_mem_toDigits]
    · simp [newline_not_mem_toDigits]
  | bool b => cases b <;> decide
  | null => decide
  | closure c => simp [display, newline_not_mem_toDigits]

theorem Value.newline_not_mem_displays (vs : List Value) :
    ∀ line ∈ vs.map display, '\n' ∉ line.toList := by
  intro line hline
  obtain ⟨v, _, rfl⟩ := List.mem_map.mp hline
  exact v.newline_not_mem_display

/-! ### An evaluation on different sinks -/

/-- The outcome with a result and a state. -/
def Outcome.of {α : Type} : Except Halt α → State → Outcome α
  | .ok a, s => .ok a s
  | .error cause, s => .error cause s

theorem Outcome.of_inj {α : Type} {r r' : Except Halt α} {s s' : State} (h : of r s = of r' s') :
    r = r' ∧ s = s' := by
  cases r <;> cases r' <;> cases h <;> exact ⟨rfl, rfl⟩

theorem Simulation.Together.of_identity {k₁ k₂ : Sink} {r₁ r₂ : Outcome Value}
    (h : identity.Together identity.SameValue k₁ k₂ r₁ r₂) :
    ∃ r t, ∃ out : List String, r₁ = Outcome.of r ⟨t, out.foldl Sink.writeLine k₁⟩ ∧
      r₂ = Outcome.of r ⟨t, out.foldl Sink.writeLine k₂⟩ := by
  cases h with
  | @ok v _ t _ out _ holds printed result =>
    obtain rfl := holds_identity.mp holds
    obtain rfl := sameValue_identity.mp result
    exact ⟨.ok v, t, out, rfl, by rw [printed]; rfl⟩
  | @error cause t _ out _ holds printed =>
    obtain rfl := holds_identity.mp holds
    exact ⟨.error cause, t, out, rfl, by rw [printed]; rfl⟩
  | excuse excused => exact excused.elim

/-- Whatever was printed before, an evaluation has the same result, leaves the same store and prints
the same lines. -/
theorem Interpreter.evalWith_on_sinks (it : Interpreter) (id : NodeId) (n : Nat) (s : Store) :
    ∃ (r : Except Halt Value) (t : Store) (out : List String),
      ∀ k, it.evalWith n id ⟨s, k⟩ = Outcome.of r ⟨t, out.foldl Sink.writeLine k⟩ := by
  have same : Simulation.identity.SameScope it it := ⟨⟨rfl, rfl, rfl⟩, rfl, rfl⟩
  have holds : Simulation.identity.Holds s s := Simulation.holds_identity.mpr rfl
  have inStep := Simulation.identity.evalWith_inStep n same holds id
  -- a run from the empty buffer shows what is printed, and every other run is compared with it
  obtain ⟨r, t, out, hrun, -⟩ := (inStep (.buffer #[]) (.buffer #[])).of_identity
  refine ⟨r, t, out, fun k => ?_⟩
  obtain ⟨r', t', out', hrun', hk⟩ := (inStep (.buffer #[]) k).of_identity
  obtain ⟨rfl, hstate⟩ := Outcome.of_inj (hrun.symm.trans hrun')
  rw [State.mk.injEq] at hstate
  obtain ⟨rfl, hsink⟩ := hstate
  obtain rfl := Sink.foldl_writeLine_buffer_inj hsink
  exact hk

/-! ### The place of each evaluation in what is printed -/

namespace Activation

/-- The evaluation starts when `before` has been printed to `k`, and prints `own`. -/
structure Prints (σ : Activation) (k : Sink) (before own : List String) : Prop where
  start : σ.state.sink = before.foldl Sink.writeLine k
  stop : σ.run.state.sink = (before ++ own).foldl Sink.writeLine k

/-- What is printed between two states falls into what is printed before an evaluation that lies
between them, by it and after it. -/
theorem exists_prints {σ : Activation} {s t : State} {out : List String}
    (before : s.Onward σ.state) (after : σ.run.state.Onward t)
    (printed : t.sink = out.foldl Sink.writeLine s.sink)
    (unbroken : ∀ line ∈ out, '\n' ∉ line.toList) :
    ∃ earlier own later, out = earlier ++ own ++ later ∧ σ.Prints s.sink earlier own := by
  obtain ⟨vs₁, h₁⟩ := before.printed
  obtain ⟨vs₂, h₂⟩ := σ.onward_run.printed
  obtain ⟨vs₃, h₃⟩ := after.printed
  refine ⟨vs₁.map Value.display, vs₂.map Value.display, vs₃.map Value.display, ?_, h₁, ?_⟩
  · rw [← List.map_append, ← List.map_append]
    refine Sink.foldl_writeLine_inj (k := s.sink) unbroken (Value.newline_not_mem_displays _) ?_
    rw [← printed, List.map_append, List.map_append, List.foldl_append, List.foldl_append, ← h₁,
      ← h₂, h₃]
  · rw [List.foldl_append, ← h₁, h₂]

end Activation

/-- Sinks only listen, and they agree. Every evaluation, however it ends, has one result, one store
that it leaves and one list of lines that it prints, whatever sink it prints to: a buffer then holds
the lines it held before and these, and a console has written, after what it wrote before, the text
of a buffer that holds these lines only. No line contains a line break, so the text split at its
line breaks gives the lines back. All evaluations inside it, in whatever calls, print to the same
sink in the order in which they run: what one of them prints is one stretch of the lines, after all
that was printed by those that ended before. -/
theorem sinks_agree (it : Interpreter) (id : NodeId) (n : Nat) (s : Store) :
    ∃ (r : Except Halt Value) (t : Store) (out : List String),
      (∀ kept, it.evalWith n id ⟨s, .buffer kept⟩ = Outcome.of r ⟨t, .buffer (kept ++ out)⟩) ∧
      (∀ written, it.evalWith n id ⟨s, .console written⟩ =
        Outcome.of r ⟨t, .console (written ++ (Sink.buffer out.toArray).output)⟩) ∧
      (∀ line ∈ out, '\n' ∉ line.toList) ∧
      (Sink.buffer out.toArray).output.toList.splitOn '\n' = out.map String.toList ++ [[]] ∧
      ∀ k done σ, Activation.Visits ⟨n, it, id, ⟨s, k⟩⟩ done σ →
        ∃ before own after, out = before ++ own ++ after ∧ σ.Prints k before own ∧
          ∀ δ ∈ done, ∃ earlier own' later, before = earlier ++ own' ++ later ∧
            δ.Prints k earlier own' := by
  obtain ⟨r, t, out, hrun⟩ := it.evalWith_on_sinks id n s
  have hsink : ∀ k, (Activation.run ⟨n, it, id, ⟨s, k⟩⟩).state.sink =
      out.foldl Sink.writeLine k := by
    intro k
    rw [Activation.run, hrun k]
    cases r <;> rfl
  have unbroken : ∀ line ∈ out, '\n' ∉ line.toList := by
    obtain ⟨vs, hvs⟩ := (Activation.onward_run ⟨n, it, id, ⟨s, .buffer #[]⟩⟩).printed
    rw [hsink] at hvs
    obtain rfl := Sink.foldl_writeLine_buffer_inj hvs
    exact Value.newline_not_mem_displays vs
  refine ⟨r, t, out, fun kept => ?_, fun written => ?_, unbroken, ?_, fun k done σ visits => ?_⟩
  · rw [hrun, Sink.foldl_writeLine_buffer]
  · rw [hrun, Sink.foldl_writeLine_console]
    rfl
  · exact Sink.splitOn_textOf unbroken
  · have within := visits.within
    obtain ⟨before, own, after, hout, hσ⟩ :=
      Activation.exists_prints within.before within.after (hsink k) unbroken
    have unbroken' : ∀ line ∈ before, '\n' ∉ line.toList := by
      intro line hline
      exact unbroken line (by simp [hout, hline])
    refine ⟨before, own, after, hout, hσ, fun δ hδ => ?_⟩
    exact Activation.exists_prints (within.done δ hδ).1 (within.done δ hδ).2 hσ.start unbroken'

/-- A call after a print, on a buffer that holds a line already: the body prints the second line. -/
theorem sinks_agree_in_call :
    let code : Code := ⟨0, ⟨#[.int 2, .print ⟨0⟩, .ident .empty, .call ⟨2⟩ .empty, .int 1,
      .print ⟨4⟩, .seq ⟨5⟩ ⟨3⟩], #[], #[]⟩⟩
    let c : Closure := ⟨0, [], ⟨1⟩, 0, code⟩
    let s : Store := ⟨#[{ bindings := [(.empty, .closure c)] }], 1, 1⟩
    let it : Interpreter := { names := .initial, code := code, env := 0 }
    let body : Activation := ⟨3, it.enter c 1, ⟨1⟩, ⟨(s.child 0).2, .buffer #["0", "1"]⟩⟩
    ∃ before own after, ["1", "2"] = before ++ own ++ after ∧
      body.Prints (.buffer #["0"]) before own := by
  intro code c s it body
  have hfirst : it.evalWith 4 ⟨5⟩ ⟨s, .buffer #["0"]⟩ = .ok (.int 1) ⟨s, .buffer #["0", "1"]⟩ := by
    with_unfolding_all rfl
  have hcallee : it.evalWith 3 ⟨2⟩ ⟨s, .buffer #["0", "1"]⟩ =
      .ok (.closure c) ⟨s, .buffer #["0", "1"]⟩ := by
    with_unfolding_all rfl
  have hopen : it.openCall c [] ⟨s, .buffer #["0", "1"]⟩ =
      .ok 1 ⟨(s.child 0).2, .buffer #["0", "1"]⟩ := by
    with_unfolding_all rfl
  have hrun : it.evalWith 5 ⟨6⟩ ⟨s, .buffer #["0"]⟩ =
      Outcome.of (.ok (.int 2)) ⟨(s.child 0).2, .buffer (#["0"] ++ ["1", "2"])⟩ := by
    with_unfolding_all rfl
  have hprint : Activation.Partway 4 it (.seq ⟨5⟩ ⟨3⟩) ⟨s, .buffer #["0"]⟩ _ _ _ :=
    .next .start rfl hfirst
  have hclosure : Activation.Partway 3 it (.call ⟨2⟩ .empty) ⟨s, .buffer #["0", "1"]⟩ _ _ _ :=
    .next .start rfl hcallee
  have hcall : Activation.Starts ⟨4, it, ⟨3⟩, ⟨s, .buffer #["0", "1"]⟩⟩ _ body :=
    .enters (.call ⟨rfl, rfl⟩ rfl rfl hclosure hopen)
  have hseq : Activation.Starts ⟨5, it, ⟨6⟩, ⟨s, .buffer #["0"]⟩⟩ _ _ := .part ⟨rfl, rfl⟩ hprint rfl
  have hvisits := hcall.visits.step hseq
  obtain ⟨r, t, out, hbuffer, -, -, -, hinner⟩ := sinks_agree it ⟨6⟩ 5 s
  obtain ⟨rfl, hstate⟩ := Outcome.of_inj ((hbuffer #["0"]).symm.trans hrun)
  obtain ⟨before, own, after, hout, hprints, -⟩ := hinner _ _ _ hvisits
  refine ⟨before, own, after, ?_, hprints⟩
  rw [← hout]
  have hlines := congrArg (fun s : State => s.sink.lines) hstate
  simpa [Sink.lines] using hlines.symm

end Treewalk
