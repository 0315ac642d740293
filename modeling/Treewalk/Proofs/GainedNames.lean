import Treewalk.Proofs.CurrentScope
import Treewalk.Proofs.Effects
import Treewalk.Proofs.Invariants
import Treewalk.Proofs.Privacy

/-! Which scopes can gain names. An evaluation declares names in its current scope and in scopes
that it opens itself, and an assignment to a name that no scope binds adds it to an outermost scope.
All other scopes bind the same names afterwards as before, and no scope loses a name. -/

namespace Treewalk

/-- Some assignment of the arena has the name as its target. -/
def Arena.Assigns (a : Arena) (x : Name) : Prop := ∃ id e, a.node? id = some (.assign x e)

namespace Store

/-- Some closure that is bound in the store has its body in `code`. -/
def Carries (s : Store) (code : Code) : Prop :=
  ∃ e x c, s.local? e x = some (.closure c) ∧ c.code = code

/-- The store `t` comes after `s`. All scopes keep the scope around them and their names; of the
scopes that are not `own`, those with a scope around them gain no names, and the outermost ones gain
only names that are `free`. -/
structure Gains (own : ScopeId → Prop) (free : Name → Prop) (s t : Store) : Prop
    extends s.Grows t where
  kept : ∀ e x, e < s.scopes.size → s.bindsLocally e x = true → t.bindsLocally e x = true
  inner : ∀ e p x, e < s.scopes.size → s.parent e = some p → ¬ own e →
    t.bindsLocally e x = true → s.bindsLocally e x = true
  outermost : ∀ e x, e < s.scopes.size → s.parent e = none → ¬ own e →
    t.bindsLocally e x = true → s.bindsLocally e x = true ∨ free x

theorem bindsLocally_bind (s : Store) (b e : ScopeId) (x y : Name) (v : Value) :
    (s.bind b x v).bindsLocally e y = true ↔
      s.bindsLocally e y = true ∨ (e = b ∧ b < s.scopes.size ∧ y = x) := by
  show ((s.bind b x v).local? e y).isSome = true ↔ (s.local? e y).isSome = true ∨ _
  rw [local?_bind]
  split
  next h => simp [h]
  next h => simp [h]

theorem bindsLocally_child (s : Store) (p e : ScopeId) (x : Name) :
    (s.child p).2.bindsLocally e x = s.bindsLocally e x := by
  show ((s.child p).2.local? e x).isSome = (s.local? e x).isSome
  rw [local?_alloc_child]

/-- No scope lies around the outermost one. -/
theorem Ordered.parent_root {s : Store} (h : s.Ordered) (e : ScopeId) :
    s.parent (s.root e) = none := by
  induction e using Nat.strongRecOn with
  | _ e ih =>
    rw [h.root_eq]
    cases hp : s.parent e with
    | some p => exact ih p (h e p hp)
    | none => exact hp

namespace Gains

variable {own : ScopeId → Prop} {free : Name → Prop} {s t : Store}

theorem refl (s : Store) : s.Gains own free s where
  toGrows := .refl s
  kept _ _ _ h := h
  inner _ _ _ _ _ _ h := h
  outermost _ _ _ _ _ h := .inl h

theorem child (h : s.Gains own free t) (e : ScopeId) : s.Gains own free (t.child e).2 where
  toGrows := h.toGrows.trans (.child t e)
  kept e' x there hx := by
    rw [bindsLocally_child]
    exact h.kept e' x there hx
  inner e' p x there hp hown hx := by
    rw [bindsLocally_child] at hx
    exact h.inner e' p x there hp hown hx
  outermost e' x there hp hown hx := by
    rw [bindsLocally_child] at hx
    exact h.outermost e' x there hp hown hx

/-- A name is bound in a scope that is new, that binds it already or that may gain it. -/
theorem bind (h : s.Gains own free t) {b : ScopeId} {x : Name} (v : Value)
    (allowed : b < s.scopes.size →
      t.bindsLocally b x = true ∨ own b ∨ s.parent b = none ∧ free x) :
    s.Gains own free (t.bind b x v) where
  toGrows := h.toGrows.trans (.bind t b x v)
  kept e y there hy := (bindsLocally_bind t b e x y v).mpr (.inl (h.kept e y there hy))
  inner e p y there hp hown hy := by
    rcases (bindsLocally_bind t b e x y v).mp hy with hold | ⟨rfl, _, rfl⟩
    · exact h.inner e p y there hp hown hold
    · rcases allowed there with hbound | hb | ⟨hnone, _⟩
      · exact h.inner e p y there hp hown hbound
      · exact absurd hb hown
      · simp [hp] at hnone
  outermost e y there hp hown hy := by
    rcases (bindsLocally_bind t b e x y v).mp hy with hold | ⟨rfl, _, rfl⟩
    · exact h.outermost e y there hp hown hold
    · rcases allowed there with hbound | hb | ⟨_, hfree⟩
      · exact h.outermost e y there hp hown hbound
      · exact absurd hb hown
      · exact .inr hfree

/-- An assignment binds a name again, or adds it to an outermost scope. -/
theorem update (h : s.Gains own free t) (ordered : t.Ordered) (e : ScopeId) {x : Name} (v : Value)
    (hfree : free x) : s.Gains own free (t.update e x v).2 := by
  unfold Store.update
  split
  next b hb => exact h.bind v fun _ => .inl (bindsLocally_of_binder? hb)
  next =>
    refine h.bind v fun there => .inr (.inr ⟨?_, hfree⟩)
    rw [← h.parent _ there]
    exact ordered.parent_root e

end Gains

end Store

/-! ### Evaluations -/

/-- Some assignment in one of the arenas has the name as its target. -/
def AssignedIn (codes : Code → Prop) (x : Name) : Prop := ∃ code, codes code ∧ code.arena.Assigns x

/-- In the store `t` with `n` scopes, closures capture scopes that are there and have their bodies
in `codes`, and compared with `s` only scopes that may gain names have done so. -/
structure Store.Gaining (s : Store) (own : ScopeId → Prop) (codes : Code → Prop) (n : Nat)
    (t : Store) : Prop where
  size : t.scopes.size = n
  ordered : t.Ordered
  bound : ∀ e x c, t.local? e x = some (.closure c) → c.env < n ∧ codes c.code
  gains : s.Gains own (AssignedIn codes) t

namespace Store.Gaining

variable {s t : Store} {own : ScopeId → Prop} {codes : Code → Prop} {n : Nat}

theorem bind (h : s.Gaining own codes n t) {b : ScopeId} {x : Name} {v : Value}
    (hv : ∀ c, v = .closure c → c.env < n ∧ codes c.code)
    (gains : s.Gains own (AssignedIn codes) (t.bind b x v)) :
    s.Gaining own codes n (t.bind b x v) where
  size := by rw [size_bind, h.size]
  ordered := h.ordered.bind b x v
  bound e y c hc := by
    rw [local?_bind] at hc
    split at hc
    · exact hv c (Option.some.inj hc)
    · exact h.bound e y c hc
  gains := gains

theorem child (h : s.Gaining own codes n t) {e : ScopeId} (there : e < n) :
    s.Gaining own codes (n + 1) (t.child e).2 where
  size := by rw [Store.child, size_alloc, h.size]
  ordered := h.ordered.child (by rw [h.size]; exact there)
  bound e' x c hc := by
    rw [local?_alloc_child] at hc
    exact ⟨Nat.lt_succ_of_lt (h.bound e' x c hc).1, (h.bound e' x c hc).2⟩
  gains := h.gains.child e

end Store.Gaining

/-- While an evaluation runs over `codes`, its current scope is an `own` one or one that was not in
`s`. -/
def gaining (s : Store) (own : ScopeId → Prop) (codes : Code → Prop) : Invariant Nat where
  Le := (· ≤ ·)
  Holds := s.Gaining own codes
  Knows n v := ∀ c, v = .closure c → c.env < n ∧ codes c.code
  Runs n it _ := it.env < n ∧ (own it.env ∨ s.scopes.size ≤ it.env) ∧ codes it.code
  refl := Nat.le_refl
  trans := Nat.le_trans
  knows_mono hle h c hc := ⟨Nat.lt_of_lt_of_le (h c hc).1 hle, (h c hc).2⟩
  runs_mono hle h := ⟨Nat.lt_of_lt_of_le h.1 hle, h.2⟩
  data hv c hc := by
    subst hc
    cases hv
  bound h hv c hc := by
    subst hc
    exact h.bound _ _ c hv
  part h _ _ := h
  block {n t it id e} h hruns _ := by
    have hsize : t.scopes.size < n + 1 := Nat.lt_succ_of_le (Nat.le_of_eq h.size)
    exact ⟨n + 1, Nat.le_succ n, h.child hruns.1, hsize, .inr h.gains.size, hruns.2.2⟩
  declare h hruns _ hv := by
    refine h.bind hv (h.gains.bind _ fun there => .inr (.inl ?_))
    rcases hruns.2.1 with hown | hnew
    · exact hown
    · exact absurd there (Nat.not_lt_of_le hnew)
  assign {n t it id x e v} h hruns hold hv := by
    have hfree : AssignedIn codes x := ⟨it.code, hruns.2.2, id, e, hold.stored⟩
    have hgains := h.gains.update h.ordered it.env v hfree
    unfold Store.update at hgains ⊢
    split at hgains
    · exact h.bind hv hgains
    · exact h.bind hv hgains
  function {n t it id span body params} h hruns _ _ := by
    refine ⟨n, Nat.le_refl n, ⟨h.size, h.ordered, h.bound, ?_⟩, ?_⟩
    · exact ⟨⟨h.gains.size, h.gains.parent⟩, h.gains.kept, h.gains.inner, h.gains.outermost⟩
    · rintro c ⟨⟩
      exact ⟨hruns.1, hruns.2.2⟩
  enter {n t c} it h hc := by
    have hsize : t.scopes.size < n + 1 := Nat.lt_succ_of_le (Nat.le_of_eq h.size)
    obtain ⟨henv, hcode⟩ := hc c rfl
    refine ⟨n + 1, Nat.le_succ n, h.child henv, ⟨hsize, .inr h.gains.size, hcode⟩, ?_⟩
    -- parameters are bound in the new scope, which is none of those in `s`
    intro m u x v _ hu _ hv
    refine hu.bind hv (hu.gains.bind v fun there => ?_)
    exact absurd there (Nat.not_lt_of_le h.gains.size)

theorem Store.WellFormed.gaining {s : Store} (wf : s.WellFormed) {codes : Code → Prop}
    (carried : ∀ code, s.Carries code → codes code) (own : ScopeId → Prop) :
    s.Gaining own codes s.scopes.size s where
  size := rfl
  ordered := wf.ordered
  bound e x c hc := ⟨(wf.bound e x _ hc c rfl).2, carried c.code ⟨e, x, c, hc, rfl⟩⟩
  gains := .refl s

theorem Invariant.Keeps.gains {s t : Store} {own : ScopeId → Prop} {codes : Code → Prop} {n : Nat}
    {α : Type} {m : EvalM α} {Q : Nat → α → Prop} (h : (gaining s own codes).Keeps n t m Q)
    (k : Sink) : s.Gains own (AssignedIn codes) (Outcome.state (m ⟨t, k⟩)).store := by
  obtain ⟨_, _, hholds, _⟩ := h k
  exact hholds.gains

/-- A block opens a scope, so that no scope which was there before is the current one. -/
theorem block_keeps {s : Store} {codes : Code → Prop} {own : ScopeId → Prop} {n : Nat}
    (h : s.Gaining own codes n s) {it : Interpreter} (there : it.env < n) (hcode : codes it.code)
    {id e : NodeId} (hold : it.code.arena.Holds id (.block e)) (fuel : Nat) :
    (gaining s own codes).Keeps n s (it.evalWith fuel id) (gaining s own codes).Knows := by
  cases fuel with
  | zero => exact .throw h
  | succ fuel =>
    rw [Interpreter.evalWith_holds hold]
    have hchild : (gaining s own codes).Keeps (n + 1) s (EvalM.onStore (·.child it.env))
        fun _ scope => scope = s.scopes.size := .onStore (h.child there) rfl
    refine (hchild.bind fun m t scope hle holds hscope => ?_).of_le (Nat.le_succ n)
    subst hscope
    have hsize : s.scopes.size < m :=
      Nat.lt_of_lt_of_le (Nat.lt_succ_of_le (Nat.le_of_eq h.size)) hle
    exact (gaining s own codes).evaluates_evalWith fuel holds
      ⟨hsize, .inr (Nat.le_refl _), hcode⟩

/-- Only the current scope and outermost scopes can gain names. Whatever the fuel, and so however it
ends, an evaluation is back in the scope where it began; all scopes keep their names and the scopes
around them; the scopes inside others, but for the current one, gain no names; and the outermost
scopes gain only targets of assignments in the arena at hand or in the arena of a closure of the
store. A block and a call add no names to any scope that lies inside another one. -/
theorem names_gained {s : Store} (wf : s.WellFormed) (it : Interpreter) (n : Nat) (k : Sink) :
    (s.Has (.scope it.env) → ∀ id,
      it.walkWith n id ⟨it.env, s, k⟩ = Focus.outcome it.env (it.evalWith n id ⟨s, k⟩) ∧
      s.Gains (· = it.env) (AssignedIn fun code => code = it.code ∨ s.Carries code)
        (Outcome.state (it.evalWith n id ⟨s, k⟩)).store ∧
      ∀ e, it.code.arena.Holds id (.block e) →
        s.Gains (fun _ => False) (AssignedIn fun code => code = it.code ∨ s.Carries code)
          (Outcome.state (it.evalWith n id ⟨s, k⟩)).store) ∧
    ∀ f args, (∀ v ∈ f :: args, s.HasValue v) →
      s.Gains (fun _ => False)
        (AssignedIn fun code => (∃ c, .closure c ∈ f :: args ∧ c.code = code) ∨ s.Carries code)
        (Outcome.state (it.callWith n f args ⟨s, k⟩)).store := by
  constructor
  · intro there id
    have start : ∀ own, s.Gaining own (fun code => code = it.code ∨ s.Carries code)
        s.scopes.size s := wf.gaining fun _ hcode => .inr hcode
    refine ⟨?_, ?_, fun e hold => ?_⟩
    · rw [Interpreter.walkWith_eq_here]
      rfl
    · exact ((gaining s (· = it.env) _).evaluates_evalWith n (start _)
        ⟨there, .inl rfl, .inl rfl⟩).gains k
    · exact (block_keeps (start _) there (.inl rfl) hold n).gains k
  · intro f args hvs
    let codes (code : Code) := (∃ c, .closure c ∈ f :: args ∧ c.code = code) ∨ s.Carries code
    have start : s.Gaining (fun _ => False) codes s.scopes.size s :=
      wf.gaining (fun _ hcode => .inr hcode) _
    have known : ∀ v ∈ f :: args, (gaining s (fun _ => False) codes).Knows s.scopes.size v := by
      rintro v hv c rfl
      exact ⟨(hvs _ hv c rfl).2, .inl ⟨c, hv, rfl⟩⟩
    rw [List.forall_mem_cons] at known
    exact ((gaining s _ codes).keeps_callWith n it start known.1 known.2).gains k

/-- A block that declares a name and then fails leaves the scope around it without the name, and so
does a call of a closure with this block as its body. -/
theorem names_gained_failing_block :
    let code : Code := ⟨0, ⟨#[.int 1, .declare .empty ⟨0⟩, .call ⟨0⟩ .empty, .seq ⟨1⟩ ⟨2⟩,
      .block ⟨3⟩], #[], #[]⟩⟩
    let made := ((({} : Store).global.2.child 0).2.newClosure [] ⟨4⟩ 1 code)
    let s := made.2
    let it : Interpreter := { names := .initial, code := code, env := 1 }
    let r := it.evalWith 5 ⟨4⟩ ⟨s, .buffer #[]⟩
    let called := it.callWith 5 (.closure made.1) [] ⟨s, .buffer #[]⟩
    (∃ t, r = .error (.error (.notCallable "int")) t) ∧
      it.walkWith 5 ⟨4⟩ ⟨1, s, .buffer #[]⟩ = Focus.outcome 1 r ∧
      (∀ x, (Outcome.state r).store.bindsLocally 1 x = true → s.bindsLocally 1 x = true) ∧
      ∀ x, (Outcome.state called).store.bindsLocally 1 x = true → s.bindsLocally 1 x = true := by
  intro code made s it r called
  have arises : s.Arises :=
    .newClosure (.child (.global .empty) (show 0 < 1 by decide)) (show 1 < 2 by decide)
  have hparent : s.parent 1 = some 0 := rfl
  obtain ⟨hev, hcall⟩ := names_gained arises.wellFormed it 5 (.buffer #[])
  obtain ⟨hwalk, -, hblock⟩ := hev (show 1 < 2 by decide) ⟨4⟩
  have hknown : ∀ v ∈ [Value.closure made.1], s.HasValue v := by
    intro v hv c hc
    obtain rfl : c = made.1 := by simpa [hc] using hv
    exact ⟨show 0 < 1 by decide, show 1 < 2 by decide⟩
  refine ⟨⟨_, rfl⟩, hwalk, fun x hx => ?_, fun x hx => ?_⟩
  · exact (hblock ⟨3⟩ ⟨rfl, rfl⟩).inner 1 0 x (show 1 < 2 by decide) hparent not_false hx
  · exact (hcall (.closure made.1) [] hknown).inner 1 0 x (show 1 < 2 by decide) hparent
      not_false hx

end Treewalk
