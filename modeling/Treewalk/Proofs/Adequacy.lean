import Treewalk.Proofs.Completeness
import Treewalk.Proofs.Soundness

/-! The evaluator on nodes and the rules on trees give programs the same meaning. A program that was
built from trees ends in its arena exactly when the rules let its trees end, with the same lines,
the same error or the same value, and the same variables in every scope. -/

namespace Treewalk

/-- The state before a program runs: one outermost scope without variables. -/
def State.start (k : Sink) : State := { store := ({} : Store).global.2, sink := k }

/-- A scope of the state before a program runs binds nothing and has nothing around it. -/
theorem State.scope_start (k : Sink) (e : ScopeId) : (State.start k).store.scope e = {} := by
  rw [State.start, Store.scope_global, Store.scope_empty]

theorem State.parent_start (k : Sink) (e : ScopeId) : (State.start k).store.parent e = none := by
  rw [Store.parent, scope_start]

theorem State.local?_start (k : Sink) (e : ScopeId) (x : Name) :
    (State.start k).store.local? e x = none := by
  rw [Store.local?, scope_start]
  rfl

/-- The interpreter for a whole program. -/
def Interpreter.start (names : Interner) (code : Code) (limit : Option Nat) : Interpreter :=
  { names := names, code := code, env := ({} : Store).global.1, limit := limit }

/-- The memory before a program runs: one outermost scope without variables. -/
def Memory.start : Memory := ({} : Memory).push

/-- The outermost scope alone. -/
def startEnv : List ScopeId := [({} : Memory).next]

theorem Interpreter.follows_start {names : Interner} (wf : names.WellFormed) (code : Code)
    (limit : Option Nat) (k : Sink) :
    (start names code limit).Follows k limit 0 startEnv (.start k) .start where
  names := wf
  limit := rfl
  depth := rfl
  around := ⟨Nat.zero_lt_one, by rw [Store.chain]; rfl⟩
  state := by
    have hfree : ∀ e p, Memory.start.vars e p = none := by
      intro e p
      rw [Memory.start, Memory.vars_push]
      rfl
    refine ⟨⟨rfl, rfl, fun e x p _ => ?_, fun e x v hv => ?_, fun e p d hd => ?_⟩, rfl⟩
    · rw [hfree, State.local?_start]
      exact .none
    · rw [State.local?_start] at hv
      cases hv
    · rw [hfree] at hd
      cases hd

/-- Where evaluator and rules stand side by side, they end alike. -/
theorem Interpreter.Follows.endAlike {it : Interpreter} {k : Sink} {limit : Option Nat}
    {depth : Nat} {env : List ScopeId} {s : State} {μ : Memory} {t : Term} {id : NodeId}
    (hit : it.Follows k limit depth env s μ) (h : t.Denotes it.names it.code.arena id) :
    EndAlike (Outcome.Represents it.names k) (it.Ends id s)
      fun x => Eval limit depth env (.tree t) μ x.1 x.2 where
  forth r hr := by
    obtain ⟨n, hn⟩ := hr.settles
    have allowed := Interpreter.evalWith_sound n hit h
    rw [hn n (Nat.le_refl n)] at allowed
    obtain ⟨w, μ', hrules, hrep, _⟩ := allowed hr.finished
    exact ⟨(w, μ'), hrules, hrep⟩
  back x hx := by
    obtain ⟨r, hr, hrep, _⟩ := hx.reaches hit ⟨id, h, rfl⟩
    exact ⟨r, hr, hrep⟩

/-- A program that was built ends as the rules let its tree end. -/
theorem Tree.Built.endAlike {t : Term} {root : Option NodeId} {b : Builder} (h : t.Built root b)
    (wf : b.names.WellFormed) (fits : b.arena.size ≤ maxIndex) (number : Nat) (limit : Option Nat)
    (k : Sink) :
    EndAlike (Outcome.Represents b.names k)
      ((Interpreter.start b.names ⟨number, b.arena⟩ limit).Ends (.ofOption root) (.start k))
      fun x => Eval limit 0 startEnv (.tree t) .start x.1 x.2 :=
  (Interpreter.follows_start wf ⟨number, b.arena⟩ limit k).endAlike
    (h.denotes b (.refl b) fits)

/-- Building and running a program means what the rules say. Unless some table has no room left, the
program is built; and if no node took the number that marks absent ones, the program ends exactly
when the rules let it end, in an outcome that represents theirs. A run whose fuel lasts gives this
outcome, and it gives every outcome that is reached with no more than its fuel. -/
theorem run_adequate {b : Builder} (wf : b.names.WellFormed) (trees : List Term)
    (fit : Tree.allListsFit trees = true) (number : Nat) (limit : Option Nat) (k : Sink) :
    (∃ refusal b', Tree.buildProgram Empty.elim trees b = .error refusal b' ∧ refusal.TableFull) ∨
    ∃ root b', Tree.buildProgram Empty.elim trees b = .ok root b' ∧
      (b'.arena.size ≤ maxIndex →
        let it := Interpreter.start b'.names ⟨number, b'.arena⟩ limit
        EndAlike (Outcome.Represents b'.names k) (it.Ends (.ofOption root) (.start k))
          (fun x => Eval limit 0 startEnv (.tree (.seq trees)) .start x.1 x.2) ∧
        (Outcome.Finished (it.run root (.start k)) →
          it.Ends (.ofOption root) (.start k) (it.run root (.start k))) ∧
        ∀ r : Outcome Value, r.Finished →
          (it.run root (.start k) = r ↔
            ∃ n ≤ Interpreter.ample, it.evalWith n (.ofOption root) (.start k) = r)) := by
  have built := Tree.buildProgram_gives wf fit
  unfold Build.Gives at built
  cases hbuild : Tree.buildProgram Empty.elim trees b with
  | error refusal b' =>
    rw [hbuild] at built
    exact .inl ⟨refusal, b', rfl, built⟩
  | ok root b' =>
    rw [hbuild] at built
    obtain ⟨_, wf', built⟩ := built
    refine .inr ⟨root, b', rfl, fun fits => ⟨built.endAlike wf' fits number limit k, ?_, ?_⟩⟩
    · exact Interpreter.ends_of_evalWith rfl
    · exact fun r => Interpreter.run_eq_iff

/-- The sum of two numbers, from its tree to the line that its nodes print. -/
theorem run_adequate_sum :
    ∃ root b s, Tree.buildProgram Empty.elim [.print (.binary "+" (.int 3) (.int 4))] {} =
        .ok root b ∧
      (Interpreter.start b.names ⟨0, b.arena⟩ none).Ends (.ofOption root) (.start (.buffer #[]))
        (.ok (.int 7) s) ∧
      (Interpreter.start b.names ⟨0, b.arena⟩ none).run root (.start (.buffer #[])) =
        .ok (.int 7) s ∧
      s.sink = .buffer #["7"] := by
  obtain ⟨_, _, refused, _⟩ | ⟨root, b, hbuild, means⟩ :=
    run_adequate (b := {}) Interner.wellFormed_initial [.print (.binary "+" (.int 3) (.int 4))] rfl
      0 none (.buffer #[])
  · cases refused
  · have hsize : b.arena.size = 4 := by
      cases hbuild
      rfl
    obtain ⟨alike, -, hrun⟩ := means (by rw [hsize]; decide)
    have plus : Operator.ofToken? "+" = some .add := rfl
    have sum : Eval none 0 startEnv (.tree (.binary "+" (.int 3) (.int 4))) .start (.ok (.int 7))
        .start := Eval.binary plus .int .int
    have rules : Eval none 0 startEnv (.tree (.seq [.print (.binary "+" (.int 3) (.int 4))])) .start
        (.ok (.int 7)) (Memory.start.print "7") := .seqLast rfl rfl (.print sum)
    obtain ⟨r, hr, hrep⟩ := alike.back (.ok (.int 7), _) rules
    have evaluated : (Interpreter.start b.names ⟨0, b.arena⟩ none).evalWith 3 (.ofOption root)
        (.start (.buffer #[])) = r := by
      refine EvalM.Ends.unique (Interpreter.ends_of_evalWith rfl ?_) hr
      cases hbuild
      trivial
    cases hrep with
    | @ok v s d μ hv hs =>
      cases hv
      exact ⟨root, b, s, hbuild, hr, (hrun _ hr.finished).mpr ⟨3, by decide, evaluated⟩, hs.sink⟩

end Treewalk
