import Treewalk.Eval

/-! Fuel only bounds evaluation: an evaluation that ends before its fuel runs out ends the same way
with more fuel. -/

namespace Treewalk

/-- Wherever `m` does not run out of fuel, `m'` does the same as `m`. -/
def EvalM.Below {α : Type} (m m' : EvalM α) : Prop :=
  ∀ s, (∃ s', m s = .error .outOfFuel s') ∨ m s = m' s

namespace EvalM.Below

theorem refl {α : Type} (m : EvalM α) : Below m m := fun _ => .inr rfl

theorem trans {α : Type} {m₁ m₂ m₃ : EvalM α} (h₁ : Below m₁ m₂) (h₂ : Below m₂ m₃) :
    Below m₁ m₃ := by
  intro s
  rcases h₁ s with h | h
  · exact .inl h
  · rw [h]
    exact h₂ s

theorem bind {α β : Type} {m m' : EvalM α} {f f' : α → EvalM β} (h : Below m m')
    (hf : ∀ a, Below (f a) (f' a)) : Below (m >>= f) (m' >>= f') := by
  intro s
  rcases h s with ⟨s', hs⟩ | hs
  · exact .inl ⟨s', by simp [Bind.bind, EStateM.bind, hs]⟩
  · simp only [Bind.bind, EStateM.bind]
    rw [← hs]
    cases m s with
    | ok a t => exact hf a t
    | error e t => exact .inr rfl

theorem mapM {α β : Type} {f f' : α → EvalM β} (h : ∀ a, Below (f a) (f' a)) (xs : List α) :
    Below (xs.mapM f) (xs.mapM f') := by
  induction xs with
  | nil => exact refl _
  | cons x xs ih =>
    rw [List.mapM_cons, List.mapM_cons]
    exact (h x).bind fun _ => ih.bind fun _ => refl _

theorem iterate {test test' body body' : EvalM Value} (ht : Below test test')
    (hb : Below body body') {n k : Nat} (h : n ≤ k) :
    Below (Interpreter.iterate test body n) (Interpreter.iterate test' body' k) := by
  induction n generalizing k with
  | zero => exact fun s => .inl ⟨s, rfl⟩
  | succ n ih =>
    obtain ⟨j, rfl⟩ : ∃ j, k = j + 1 := ⟨k - 1, by omega⟩
    rw [Interpreter.iterate, Interpreter.iterate]
    refine ht.bind fun v => ?_
    split
    · exact hb.bind fun _ => ih (Nat.le_of_succ_le_succ h)
    · exact refl _
    · exact refl _

section Parts

variable {ev ev' : Interpreter → NodeId → EvalM Value}

theorem apply (h : ∀ it id, Below (ev it id) (ev' it id)) (it : Interpreter) (c : Closure)
    (args : List Value) :
    Below (Interpreter.apply ev it c args) (Interpreter.apply ev' it c args) := by
  unfold Interpreter.apply
  split
  · exact (refl _).bind fun _ => (refl _).bind fun _ => (refl _).bind fun _ => h _ _
  · exact refl _

theorem evalNode (h : ∀ it id, Below (ev it id) (ev' it id)) (n : Nat) (it : Interpreter)
    (node : Node) : Below (it.evalNode ev n node) (it.evalNode ev' (n + 1) node) := by
  cases node <;> simp only [Interpreter.evalNode]
  case print => exact (h _ _).bind fun _ => refl _
  case binary => exact (h _ _).bind fun _ => (h _ _).bind fun _ => refl _
  case cond =>
    refine (h _ _).bind fun v => ?_
    split
    · exact h _ _
    · exact h _ _
    · exact refl _
  case loop => exact (h _ _).iterate (h _ _) (Nat.le_succ n)
  case seq => exact (h _ _).bind fun _ => h _ _
  case block => exact (refl _).bind fun _ => h _ _
  case declare => exact (h _ _).bind fun _ => refl _
  case assign => exact (h _ _).bind fun _ => refl _
  case call =>
    refine (h _ _).bind fun v => ?_
    split
    · exact (refl _).bind fun _ => (mapM (h it) _).bind fun _ => apply h _ _ _
    · exact refl _
  all_goals exact refl _

end Parts

end EvalM.Below

namespace Interpreter

theorem evalWith_below_succ (n : Nat) (it : Interpreter) (id : NodeId) :
    EvalM.Below (it.evalWith n id) (it.evalWith (n + 1) id) := by
  induction n generalizing it id with
  | zero => exact fun s => .inl ⟨s, rfl⟩
  | succ n ih =>
    rw [evalWith_succ, evalWith_succ]
    unfold evalStep
    split
    · exact (EvalM.Below.refl _).bind fun _ => EvalM.Below.evalNode ih _ _ _
    · exact EvalM.Below.refl _

/-- More fuel keeps a finished answer. -/
theorem evalWith_below {n k : Nat} (h : n ≤ k) (it : Interpreter) (id : NodeId) :
    EvalM.Below (it.evalWith n id) (it.evalWith k id) := by
  induction h with
  | refl => exact EvalM.Below.refl _
  | step _ ih => exact ih.trans (evalWith_below_succ _ it id)

end Interpreter

end Treewalk
