import Treewalk.Proofs.CallLimit
import Treewalk.Proofs.Completeness
import Treewalk.Proofs.StatementLists

/-! Loops and their rounds. A loop ends if there are rounds, in which its condition holds and its
body gives a value, up to a state in which the condition or the body ends it. Unrolling a loop once
changes nothing but the wording of an error. -/

namespace Treewalk

namespace Interpreter

variable {it : Interpreter} {s t : State} {r : Outcome Value} {n : Nat}
  {loop test body branch rest : NodeId} {context : String}

/-! ### Rounds -/

/-- A round of a loop: the condition holds and the body then gives a value. -/
def Round (it : Interpreter) (test body : NodeId) (s t : State) : Prop :=
  ∃ u v, it.Ends test s (.ok (.bool true) u) ∧ it.Ends body u (.ok v t)

/-- There are states from `s` to `t`, each of them a round after the one before, with `n` rounds
altogether. -/
def Rounds (it : Interpreter) (test body : NodeId) (n : Nat) (s t : State) : Prop :=
  ∃ states : Nat → State, states 0 = s ∧ states n = t ∧
    ∀ i, i < n → it.Round test body (states i) (states (i + 1))

theorem rounds_zero : it.Rounds test body 0 s t ↔ s = t := by
  constructor
  · rintro ⟨states, rfl, rfl, -⟩
    rfl
  · rintro rfl
    exact ⟨fun _ => s, rfl, rfl, nofun⟩

theorem rounds_succ :
    it.Rounds test body (n + 1) s t ↔ ∃ u, it.Round test body s u ∧ it.Rounds test body n u t := by
  constructor
  · rintro ⟨states, rfl, rfl, rounds⟩
    refine ⟨states 1, rounds 0 (Nat.zero_lt_succ n), fun i => states (i + 1), rfl, rfl, ?_⟩
    exact fun i hi => rounds (i + 1) (Nat.succ_lt_succ hi)
  · rintro ⟨u, first, states, rfl, rfl, rounds⟩
    refine ⟨fun i => if i = 0 then s else states (i - 1), rfl, by simp, fun i hi => ?_⟩
    cases i with
    | zero => simpa using first
    | succ i => simpa using rounds i (Nat.lt_of_succ_lt_succ hi)

/-- The loop ends in `r` before its body gives a value: the condition fails, is no truth value or
does not hold, or the body fails. The context is for the message about a condition that is no truth
value. -/
inductive Leaves (it : Interpreter) (context : String) (test body : NodeId) (s : State) :
    Outcome Value → Prop where
  | done {t : State} (untrue : it.Ends test s (.ok (.bool false) t)) :
      Leaves it context test body s (.ok .null t)
  | testFails {cause : Halt} {t : State} (fails : it.Ends test s (.error cause t)) :
      Leaves it context test body s (.error cause t)
  | noBool {v : Value} {t : State} (given : it.Ends test s (.ok v t)) (other : v.bool? = none) :
      Leaves it context test body s (.error (.error (.typeMismatch context "bool" v.typeName)) t)
  | bodyFails {cause : Halt} {u t : State} (holds : it.Ends test s (.ok (.bool true) u))
      (fails : it.Ends body u (.error cause t)) : Leaves it context test body s (.error cause t)

/-- The context matters only if the condition is no truth value. -/
theorem Leaves.mono {context' : String} (h : it.Leaves context test body s r)
    (truth : ∀ v t, it.Ends test s (.ok v t) → v.bool? ≠ none) :
    it.Leaves context' test body s r := by
  cases h with
  | done untrue => exact .done untrue
  | testFails fails => exact .testFails fails
  | noBool given other => exact absurd other (truth _ _ given)
  | bodyFails holds fails => exact .bodyFails holds fails

/-! ### Loops -/

/-- What one round of the iteration can come to. -/
theorem iterate_succ {k : Nat}
    (h : iterate (it.evalWith n test) (it.evalWith n body) (k + 1) s = r) (finished : r.Finished) :
    it.Leaves "while condition" test body s r ∨
      ∃ t, it.Round test body s t ∧
        iterate (it.evalWith n test) (it.evalWith n body) k t = r := by
  rw [iterate] at h
  cases htest : it.evalWith n test s with
  | error cause t =>
    rw [EvalM.bind_of_error htest] at h
    subst h
    exact .inl (.testFails (ends_of_evalWith htest finished))
  | ok v t =>
    rw [EvalM.bind_of_ok htest] at h
    have given := ends_of_evalWith htest trivial
    cases v with
    | bool b =>
      cases b with
      | true =>
        cases hbody : it.evalWith n body t with
        | ok w u =>
          exact .inr ⟨u, ⟨t, w, given, ends_of_evalWith hbody trivial⟩,
            (EvalM.bind_of_ok hbody).symm.trans h⟩
        | error cause u =>
          obtain rfl : .error cause u = r := (EvalM.bind_of_error hbody).symm.trans h
          exact .inl (.bodyFails given (ends_of_evalWith hbody finished))
      | false =>
        cases h
        exact .inl (.done given)
    | _ =>
      cases h
      exact .inl (.noBool given rfl)

/-- The rounds of an iteration that ends, by the bound on their number. -/
theorem exists_rounds {k : Nat} (h : iterate (it.evalWith n test) (it.evalWith n body) k s = r)
    (finished : r.Finished) :
    ∃ m t, it.Rounds test body m s t ∧ it.Leaves "while condition" test body t r := by
  induction k generalizing s with
  | zero =>
    subst h
    exact finished.elim
  | succ k ih =>
    rcases iterate_succ h finished with leaves | ⟨u, first, h⟩
    · exact ⟨0, s, rounds_zero.mpr rfl, leaves⟩
    · obtain ⟨m, t, rounds, leaves⟩ := ih h
      exact ⟨m + 1, t, rounds_succ.mpr ⟨u, first, rounds⟩, leaves⟩

theorem Leaves.ends (h : it.Leaves "while condition" test body s r)
    (hold : it.code.arena.Holds loop (.loop test body)) : it.Ends loop s r := by
  have step : ∀ n, it.evalWith (n + 2) loop =
      iterate (it.evalWith (n + 1) test) (it.evalWith (n + 1) body) (n + 1) := by
    intro n
    rw [evalWith_holds hold]
    rfl
  cases h with
  | done untrue =>
    obtain ⟨n, hn⟩ := untrue.settles
    refine ends_of_evalWith (n := n + 2) ?_ trivial
    rw [step, iterate, EvalM.bind_of_ok (hn (n + 1) (Nat.le_succ n))]
    rfl
  | testFails fails =>
    obtain ⟨n, hn⟩ := fails.settles
    refine ends_of_evalWith (n := n + 2) ?_ fails.finished
    rw [step, iterate, EvalM.bind_of_error (hn (n + 1) (Nat.le_succ n))]
  | @noBool v t given other =>
    obtain ⟨n, hn⟩ := given.settles
    refine ends_of_evalWith (n := n + 2) ?_ trivial
    rw [step, iterate, EvalM.bind_of_ok (hn (n + 1) (Nat.le_succ n))]
    cases v with
    | bool b => cases other
    | _ => rfl
  | bodyFails holds fails =>
    obtain ⟨n, hn⟩ := holds.settles
    obtain ⟨n', hn'⟩ := fails.settles
    refine ends_of_evalWith (n := max n n' + 2) ?_ fails.finished
    rw [step, iterate, EvalM.bind_of_ok (hn (max n n' + 1) (by omega))]
    exact EvalM.bind_of_error (hn' (max n n' + 1) (by omega))

/-- A loop ends in `r` exactly if it leaves with `r` after some number of rounds. -/
theorem ends_loop_iff (hold : it.code.arena.Holds loop (.loop test body)) :
    it.Ends loop s r ↔
      ∃ n t, it.Rounds test body n s t ∧ it.Leaves "while condition" test body t r := by
  constructor
  · intro h
    obtain ⟨n, hn⟩ := h.settles
    have hrun := hn (n + 1) (Nat.le_succ n)
    rw [evalWith_holds hold] at hrun
    exact exists_rounds hrun h.finished
  · rintro ⟨n, t, rounds, leaves⟩
    induction n generalizing s with
    | zero =>
      obtain rfl := rounds_zero.mp rounds
      exact leaves.ends hold
    | succ n ih =>
      obtain ⟨u, ⟨w, v, htest, hbody⟩, rounds⟩ := rounds_succ.mp rounds
      exact .loop_next hold htest hbody (ih rounds)

/-- A loop leaves at once, or it does a round and is then a loop again. -/
theorem ends_loop_unroll (hold : it.code.arena.Holds loop (.loop test body)) :
    it.Ends loop s r ↔ it.Leaves "while condition" test body s r ∨
      ∃ t, it.Round test body s t ∧ it.Ends loop t r := by
  simp only [ends_loop_iff hold]
  constructor
  · rintro ⟨n, t, rounds, leaves⟩
    cases n with
    | zero =>
      obtain rfl := rounds_zero.mp rounds
      exact .inl leaves
    | succ n =>
      obtain ⟨u, first, rounds⟩ := rounds_succ.mp rounds
      exact .inr ⟨u, first, n, t, rounds, leaves⟩
  · rintro (leaves | ⟨u, first, n, t, rounds, leaves⟩)
    · exact ⟨0, s, rounds_zero.mpr rfl, leaves⟩
    · exact ⟨n + 1, t, rounds_succ.mpr ⟨u, first, rounds⟩, leaves⟩

/-! ### Branches -/

/-- A branching expression ends as the branch that its condition chooses. -/
theorem ends_cond_iff {yes no : NodeId} (hold : it.code.arena.Holds branch (.cond test yes no)) :
    it.Ends branch s r ↔
      (∃ v t, it.Ends test s (.ok v t) ∧
        EvalM.Ends (fun n =>
          match v with
          | .bool true => it.evalWith n yes
          | .bool false => it.evalWith n no
          | other => EvalM.fail (.typeMismatch "if condition" "bool" other.typeName)) t r) ∨
      ∃ cause t, it.Ends test s (.error cause t) ∧ r = .error cause t := by
  refine EvalM.Ends.iff_succ.trans (Iff.trans ?_ (EvalM.Ends.bind_iff
    (fun h => evalWith_below h it test) fun v n k h => ?_))
  · simp only [evalWith_holds hold]
    rfl
  · split
    · exact evalWith_below h it yes
    · exact evalWith_below h it no
    · exact EvalM.Below.refl _

/-- A loop that is unrolled once leaves at once, or it does a round and is then a loop. -/
theorem ends_unrolled_iff (hbranch : it.code.arena.Holds branch (.cond test rest .absent))
    (hrest : it.code.arena.Holds rest (.seq body loop)) :
    it.Ends branch s r ↔ it.Leaves "if condition" test body s r ∨
      ∃ t, it.Round test body s t ∧ it.Ends loop t r := by
  rw [ends_cond_iff hbranch]
  constructor
  · rintro (⟨v, t, given, h⟩ | ⟨cause, t, fails, rfl⟩)
    · cases v with
      | bool b =>
        cases b with
        | true =>
          rcases (ends_seq_iff hrest).mp h with ⟨w, u, hbody, again⟩ | ⟨cause, u, fails, rfl⟩
          · exact .inr ⟨u, ⟨t, w, given, hbody⟩, again⟩
          · exact .inl (.bodyFails given fails)
        | false =>
          obtain rfl := h.unique (it.ends_absent NodeId.isPresent_absent t)
          exact .inl (.done given)
      | _ =>
        obtain ⟨n, hn⟩ := h.settles
        cases hn n (Nat.le_refl n)
        exact .inl (.noBool given rfl)
    · exact .inl (.testFails fails)
  · rintro (leaves | ⟨t, ⟨u, w, holds, hbody⟩, again⟩)
    · cases leaves with
      | done untrue => exact .inl ⟨_, _, untrue, it.ends_absent NodeId.isPresent_absent _⟩
      | testFails fails => exact .inr ⟨_, _, fails, rfl⟩
      | @noBool v t given other =>
        refine .inl ⟨v, t, given, ?_⟩
        cases v with
        | bool b => cases other
        | _ => exact .of_eq trivial fun _ => rfl
      | bodyFails holds fails =>
        exact .inl ⟨_, _, holds, (ends_seq_iff hrest).mpr (.inr ⟨_, _, fails, rfl⟩)⟩
    · exact .inl ⟨_, u, holds, (ends_seq_iff hrest).mpr (.inl ⟨w, t, hbody, again⟩)⟩

end Interpreter

/-- A loop is exactly its iteration. It ends with a value if after some number of rounds its
condition does not hold; the value is null, and the state is the one after that condition. It ends
with an error if after some number of rounds the condition fails, or is no truth value, or the body
fails. So a loop and the same loop unrolled once end alike, but if the first condition is no truth
value, then the wording of the error tells them apart. -/
theorem loop_is_iteration {it : Interpreter} {loop test body : NodeId}
    (hold : it.code.arena.Holds loop (.loop test body)) (s : State) :
    (∀ v t, it.Ends loop s (.ok v t) ↔
      v = .null ∧ ∃ n u, it.Rounds test body n s u ∧ it.Ends test u (.ok (.bool false) t)) ∧
    (∀ cause t, it.Ends loop s (.error cause t) ↔
      ∃ n u, it.Rounds test body n s u ∧
        (it.Ends test u (.error cause t) ∨
          (∃ v, it.Ends test u (.ok v t) ∧ v.bool? = none ∧
            cause = .error (.typeMismatch "while condition" "bool" v.typeName)) ∨
          ∃ w, it.Ends test u (.ok (.bool true) w) ∧ it.Ends body w (.error cause t))) ∧
    ∀ again rest branch, it.code.arena.Holds again (.loop test body) →
      it.code.arena.Holds rest (.seq body again) →
      it.code.arena.Holds branch (.cond test rest .absent) →
      (∀ v t, it.Ends test s (.ok v t) → v.bool? = none →
        it.Ends loop s (.error (.error (.typeMismatch "while condition" "bool" v.typeName)) t) ∧
        it.Ends branch s (.error (.error (.typeMismatch "if condition" "bool" v.typeName)) t)) ∧
      ((∀ v t, it.Ends test s (.ok v t) → v.bool? ≠ none) →
        ∀ r, it.Ends loop s r ↔ it.Ends branch s r) := by
  refine ⟨fun v t => ?_, fun cause t => ?_, fun again rest branch hagain hrest hbranch => ?_⟩
  · rw [Interpreter.ends_loop_iff hold]
    constructor
    · rintro ⟨n, u, rounds, leaves⟩
      cases leaves with
      | done untrue => exact ⟨rfl, n, u, rounds, untrue⟩
    · rintro ⟨rfl, n, u, rounds, untrue⟩
      exact ⟨n, u, rounds, .done untrue⟩
  · rw [Interpreter.ends_loop_iff hold]
    refine exists₂_congr fun n u => and_congr_right fun _ => ?_
    constructor
    · intro leaves
      cases leaves with
      | testFails fails => exact .inl fails
      | noBool given other => exact .inr (.inl ⟨_, given, other, rfl⟩)
      | bodyFails holds fails => exact .inr (.inr ⟨_, holds, fails⟩)
    · rintro (fails | ⟨v, given, other, rfl⟩ | ⟨w, holds, fails⟩)
      · exact .testFails fails
      · exact .noBool given other
      · exact .bodyFails holds fails
  · have hsame : ∀ u r, it.Ends loop u r ↔ it.Ends again u r := fun u r => by
      rw [Interpreter.ends_loop_iff hold, Interpreter.ends_loop_iff hagain]
    refine ⟨fun v t given other => ⟨?_, ?_⟩, fun truth r => ?_⟩
    · exact (Interpreter.Leaves.noBool given other).ends hold
    · exact (Interpreter.ends_unrolled_iff hbranch hrest).mpr (.inl (.noBool given other))
    · rw [Interpreter.ends_loop_unroll hold, Interpreter.ends_unrolled_iff hbranch hrest]
      simp only [hsame]
      refine or_congr ⟨fun h => h.mono truth, fun h => h.mono truth⟩ Iff.rfl

/-- The condition is a name that the body binds to null, so the second condition is no truth value.
The unrolled loop fails with the same words, as its own condition was true. -/
theorem loop_is_iteration_second_condition :
    let code : Code := ⟨0, ⟨#[.ident .empty, .null, .assign .empty ⟨1⟩, .loop ⟨0⟩ ⟨2⟩, .seq ⟨2⟩ ⟨3⟩,
      .cond ⟨0⟩ ⟨4⟩ .absent], #[], #[]⟩⟩
    let it : Interpreter := { names := .initial, code := code, env := 0 }
    let s : State := { store := { scopes := #[{ bindings := [(.empty, .bool true)] }] } }
    ∃ t, it.Ends ⟨3⟩ s (.error (.error (.typeMismatch "while condition" "bool" "null")) t) ∧
      it.Ends ⟨5⟩ s (.error (.error (.typeMismatch "while condition" "bool" "null")) t) := by
  intro code it s
  have hold : it.code.arena.Holds ⟨3⟩ (.loop ⟨0⟩ ⟨2⟩) := ⟨rfl, rfl⟩
  have hrest : it.code.arena.Holds ⟨4⟩ (.seq ⟨2⟩ ⟨3⟩) := ⟨rfl, rfl⟩
  have hbranch : it.code.arena.Holds ⟨5⟩ (.cond ⟨0⟩ ⟨4⟩ .absent) := ⟨rfl, rfl⟩
  have hrun : it.evalWith 4 ⟨3⟩ s =
      .error (.error (.typeMismatch "while condition" "bool" "null"))
        ⟨(s.store.update 0 .empty .null).2, .buffer #[]⟩ := by
    with_unfolding_all rfl
  have ends := Interpreter.ends_of_evalWith hrun trivial
  have first : it.evalWith 1 ⟨0⟩ s = .ok (.bool true) s := by with_unfolding_all rfl
  have truth : ∀ v t, it.Ends ⟨0⟩ s (.ok v t) → v.bool? ≠ none := by
    intro v t given
    cases given.unique (Interpreter.ends_of_evalWith first trivial)
    nofun
  have unrolled := (loop_is_iteration hold s).2.2 ⟨3⟩ ⟨4⟩ ⟨5⟩ hold hrest hbranch
  exact ⟨_, ends, (unrolled.2 truth _).mp ends⟩

end Treewalk
