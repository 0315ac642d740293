import Treewalk.Fuel
import Treewalk.Proofs.Relations

/-! How evaluations end, without mention of fuel. A computation with fuel ends in an outcome if it
gives this outcome with any fuel from some amount on. -/

namespace Treewalk

/-- What a computation came to: a value or a reason to stop, and the state it left. -/
abbrev Outcome (α : Type) := EStateM.Result Halt State α

namespace Outcome

variable {α : Type}

/-- The state that the computation left. -/
def state : Outcome α → State
  | .ok _ s => s
  | .error _ s => s

/-- The computation came to its end before its fuel did. -/
def Finished : Outcome α → Prop
  | .error .outOfFuel _ => False
  | _ => True

/-- Both computations gave values with `R`, or both stopped for the same cause. -/
inductive Alike (R : Value → Value → Prop) : Outcome Value → Outcome Value → Prop where
  | ok {v₁ v₂ : Value} {s₁ s₂ : State} (h : R v₁ v₂) : Alike R (.ok v₁ s₁) (.ok v₂ s₂)
  | error {cause : Halt} {s₁ s₂ : State} : Alike R (.error cause s₁) (.error cause s₂)

end Outcome

/-- The computation `m` with fuel ends in `r` from the state `s`. -/
structure EvalM.Ends {α : Type} (m : Nat → EvalM α) (s : State) (r : Outcome α) : Prop where
  finished : r.Finished
  settles : ∃ n, ∀ k, n ≤ k → m k s = r

namespace EvalM.Ends

variable {α β : Type} {m : Nat → EvalM α} {s s' : State}

theorem unique {r r' : Outcome α} (h : Ends m s r) (h' : Ends m s r') : r = r' := by
  obtain ⟨n, hn⟩ := h.settles
  obtain ⟨n', hn'⟩ := h'.settles
  rw [← hn (max n n') (Nat.le_max_left n n'), hn' (max n n') (Nat.le_max_right n n')]

theorem iff_eq {r r' : Outcome α} (h : Ends m s r) : Ends m s r' ↔ r' = r := by
  constructor
  · exact fun h' => h'.unique h
  · rintro rfl
    exact h

theorem of_eq {r : Outcome α} (hr : r.Finished) (h : ∀ n, m n s = r) : Ends m s r :=
  ⟨hr, 0, fun k _ => h k⟩

/-- More fuel keeps a finished outcome, so one amount of fuel tells how a computation ends. -/
theorem of_below {n : Nat} {r : Outcome α} (below : ∀ k, n ≤ k → Below (m n) (m k))
    (h : m n s = r) (hr : r.Finished) : Ends m s r := by
  refine ⟨hr, n, fun k hk => ?_⟩
  rcases below k hk s with ⟨t, ht⟩ | ht
  · rw [← h, ht] at hr
    exact hr.elim
  · rw [← ht, h]

theorem bind {f : Nat → α → EvalM β} {a : α} {r : Outcome β} (h : Ends m s (.ok a s'))
    (hf : Ends (fun n => f n a) s' r) : Ends (fun n => m n >>= f n) s r := by
  obtain ⟨n, hn⟩ := h.settles
  obtain ⟨n', hn'⟩ := hf.settles
  refine ⟨hf.finished, max n n', fun k hk => ?_⟩
  have hm : m k s = .ok a s' := hn k (by omega)
  have hf : f k a s' = r := hn' k (by omega)
  simp only [Bind.bind, EStateM.bind, hm, hf]

theorem bind_error {f : Nat → α → EvalM β} {e : Halt} (h : Ends m s (.error e s')) :
    Ends (fun n => m n >>= f n) s (.error e s') := by
  obtain ⟨n, hn⟩ := h.settles
  refine ⟨?_, n, fun k hk => ?_⟩
  · cases e with
    | outOfFuel => exact h.finished.elim
    | _ => trivial
  · simp only [Bind.bind, EStateM.bind, hn k hk]

/-- Two computations one after the other end as the second does, or as the first if that fails. -/
theorem bind_iff {f : Nat → α → EvalM β} {r : Outcome β}
    (below : ∀ {n k}, n ≤ k → Below (m n) (m k))
    (below' : ∀ a {n k}, n ≤ k → Below (f n a) (f k a)) :
    Ends (fun n => m n >>= f n) s r ↔
      (∃ a t, Ends m s (.ok a t) ∧ Ends (fun n => f n a) t r) ∨
        ∃ cause t, Ends m s (.error cause t) ∧ r = .error cause t := by
  constructor
  · intro h
    obtain ⟨n, hn⟩ := h.settles
    have hrun := hn n (Nat.le_refl n)
    simp only [Bind.bind, EStateM.bind] at hrun
    cases hm : m n s with
    | ok a t =>
      rw [hm] at hrun
      exact .inl ⟨a, t, .of_below (fun _ => below) hm trivial,
        .of_below (fun _ => below' a) hrun h.finished⟩
    | error cause t =>
      rw [hm] at hrun
      have hr : r = .error cause t := hrun.symm
      refine .inr ⟨cause, t, .of_below (fun _ => below) hm ?_, hr⟩
      have finished := h.finished
      rw [hr] at finished
      cases cause with
      | outOfFuel => exact finished
      | _ => trivial
  · rintro (⟨a, t, hm, hf⟩ | ⟨cause, t, hm, rfl⟩)
    · exact hm.bind hf
    · exact hm.bind_error

/-- A computation that spends one unit of fuel ends as the rest of it does. -/
theorem of_succ {m' : Nat → EvalM α} {r : Outcome α} (h : Ends m s r)
    (step : ∀ n, m' (n + 1) s = m n s) : Ends m' s r := by
  obtain ⟨n, hn⟩ := h.settles
  refine ⟨h.finished, n + 1, fun k hk => ?_⟩
  obtain ⟨j, rfl⟩ : ∃ j, k = j + 1 := ⟨k - 1, by omega⟩
  rw [step, hn j (by omega)]

theorem shift {r : Outcome α} (h : Ends m s r) : Ends (fun n => m (n + 1)) s r := by
  obtain ⟨n, hn⟩ := h.settles
  exact ⟨h.finished, n, fun k hk => hn (k + 1) (by omega)⟩

theorem iff_succ {r : Outcome α} : Ends m s r ↔ Ends (fun n => m (n + 1)) s r :=
  ⟨shift, fun h => h.of_succ fun _ => rfl⟩

/-- Computations that do the same from some amount of fuel on end in the same outcomes. -/
theorem iff_of_eq {m' : Nat → EvalM α} {r : Outcome α} {n : Nat}
    (h : ∀ k, n ≤ k → m k s = m' k s') : Ends m s r ↔ Ends m' s' r := by
  constructor
  · intro ends
    obtain ⟨n', hn'⟩ := ends.settles
    exact ⟨ends.finished, max n n', fun k hk => by rw [← h k (by omega), hn' k (by omega)]⟩
  · intro ends
    obtain ⟨n', hn'⟩ := ends.settles
    exact ⟨ends.finished, max n n', fun k hk => by rw [h k (by omega), hn' k (by omega)]⟩

/-- Computations whose outcomes are related with every amount of fuel end alike, if related
outcomes run out of fuel together. -/
theorem alike {m' : Nat → EvalM β} {R : Outcome α → Outcome β → Prop}
    (below : ∀ {n k}, n ≤ k → Below (m n) (m k)) (below' : ∀ {n k}, n ≤ k → Below (m' n) (m' k))
    (h : ∀ n, R (m n s) (m' n s')) (finished : ∀ r r', R r r' → (r.Finished ↔ r'.Finished)) :
    EndAlike R (Ends m s) (Ends m' s') where
  forth r hr := by
    obtain ⟨n, hn⟩ := hr.settles
    have related := h n
    rw [hn n (Nat.le_refl n)] at related
    exact ⟨_, .of_below (fun _ => below') rfl ((finished _ _ related).mp hr.finished), related⟩
  back r' hr := by
    obtain ⟨n, hn⟩ := hr.settles
    have related := h n
    rw [hn n (Nat.le_refl n)] at related
    exact ⟨_, .of_below (fun _ => below) rfl ((finished _ _ related).mpr hr.finished), related⟩

end EvalM.Ends

namespace Interpreter

/-- The expression with number `id` ends in `r`. -/
def Ends (it : Interpreter) (id : NodeId) : State → Outcome Value → Prop :=
  EvalM.Ends fun n => it.evalWith n id

/-- The call of `f` with `args` ends in `r`. -/
def CallEnds (it : Interpreter) (f : Value) (args : List Value) : State → Outcome Value → Prop :=
  EvalM.Ends fun n => it.callWith n f args

variable {it : Interpreter} {s : State} {r : Outcome Value} {n : Nat}

theorem ends_of_evalWith {id : NodeId} (h : it.evalWith n id s = r) (hr : r.Finished) :
    it.Ends id s r :=
  EvalM.Ends.of_below (fun _ hk => evalWith_below hk it id) h hr

/-- A run gives every finished outcome that evaluation comes to with less fuel. -/
theorem run_eq_iff {root : Option NodeId} (hr : r.Finished) :
    it.run root s = r ↔ ∃ n ≤ ample, it.evalWith n (.ofOption root) s = r := by
  constructor
  · exact fun h => ⟨ample, Nat.le_refl _, h⟩
  · rintro ⟨n, hn, rfl⟩
    rcases evalWith_below hn it (.ofOption root) s with ⟨t, ht⟩ | heq
    · rw [ht] at hr
      exact hr.elim
    · exact heq.symm

/-- An expression that does something with the value of its operand ends when this is done, or with
the operand if that fails. -/
theorem ends_bind_iff {id i : NodeId} {f : Value → EvalM Value}
    (step : ∀ n, it.evalWith (n + 1) id = it.evalWith n i >>= f)
    (finished : ∀ v t, Outcome.Finished (f v t)) :
    it.Ends id s r ↔ (∃ v t, it.Ends i s (.ok v t) ∧ r = f v t) ∨
      ∃ cause t, it.Ends i s (.error cause t) ∧ r = .error cause t := by
  have hrest : ∀ v t, EvalM.Ends (fun _ => f v) t r ↔ r = f v t := fun v t =>
    EvalM.Ends.iff_eq (.of_eq (finished v t) fun _ => rfl)
  have hbind := EvalM.Ends.bind_iff (s := s) (r := r) (f := fun _ => f)
    (fun h => evalWith_below h it i) fun v _ _ _ => EvalM.Below.refl (f v)
  simp only [hrest] at hbind
  refine EvalM.Ends.iff_succ.trans (Iff.trans ?_ hbind)
  simp only [step]

theorem callWith_below {n k : Nat} (h : n ≤ k) (it : Interpreter) (f : Value)
    (args : List Value) : EvalM.Below (it.callWith n f args) (it.callWith k f args) := by
  cases f with
  | closure c => exact EvalM.Below.apply (fun it id => evalWith_below h it id) it c args
  | _ => exact EvalM.Below.refl _

end Interpreter

end Treewalk
