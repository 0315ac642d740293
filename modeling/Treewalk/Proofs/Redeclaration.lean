import Treewalk.Proofs.Calls

/-! Where failed declarations come from. An evaluation that ends because a name is declared twice
has come to the place of this declaration, in itself or in an evaluation inside it: a declaration
whose scope has the name already, or a call of a closure with two parameters of that name. What is
reported is the string of the name that is declared there. -/

namespace Treewalk

/-! ### Parts that are left -/

/-- No more parts than this are evaluated for a node, with at most `n` rounds of a loop. -/
def Arena.partLimit (a : Arena) (n : Nat) : Node → Nat
  | .loop _ _ => 2 * n
  | node => (a.parts node).length

theorem Node.length_lt_of_nextInLoop {test body j : NodeId} {n : Nat} {vs : List Value}
    (h : nextInLoop test body n vs = some j) : vs.length < 2 * n := by
  fun_induction nextInLoop test body n vs with
  | case2 | case3 =>
    simp only [List.length_nil, List.length_singleton]
    omega
  | case4 n _ vs ih =>
    have := ih h
    simp only [List.length_cons]
    omega
  | case1 | case5 => cases h

theorem Arena.length_lt_of_next? {a : Arena} {n : Nat} {node : Node} {vs : List Value} {j : NodeId}
    (h : a.next? n node vs = some j) : vs.length < a.partLimit n node := by
  cases node with
  | print e | declare x e | assign x e =>
    match vs, h with
    | [], _ => exact Nat.zero_lt_one
  | binary op l r | seq l r =>
    match vs, h with
    | [], _ => exact Nat.zero_lt_two
    | [_], _ => exact Nat.one_lt_two
  | cond c t e =>
    match vs, h with
    | [], _ => exact Nat.zero_lt_succ _
    | [.bool true], _ | [.bool false], _ => exact Nat.succ_lt_succ (Nat.zero_lt_succ _)
  | loop c b => exact Node.length_lt_of_nextInLoop h
  | call f span =>
    match vs, h with
    | [], _ => exact Nat.zero_lt_succ _
    | .closure c :: vs, h =>
      obtain ⟨ids, hids, hj⟩ := Option.bind_eq_some_iff.mp h
      obtain ⟨hlt, -⟩ := List.getElem?_eq_some_iff.mp hj
      simpa [partLimit, hids] using hlt
  | _ => cases h

namespace Activation

variable {n : Nat} {it : Interpreter} {id : NodeId} {node : Node} {s t : State}
  {τ σ : Activation} {done : List Activation} {vs : List Value} {x : Name} {p : String}

theorem Partway.length_le (h : Partway n it node s done vs t) :
    vs.length ≤ it.code.arena.partLimit n node := by
  cases h with
  | start => exact Nat.zero_le _
  | next _ hj _ =>
    rw [List.length_append, List.length_singleton]
    exact Arena.length_lt_of_next? hj

/-- The parts of a node are evaluated until none is left or one of them fails. -/
theorem Partway.exists_last (h : Partway n it node s done vs t) :
    ∃ done' vs' t', Partway n it node s done' vs' t' ∧
      (it.code.arena.next? n node vs' = none ∨
        ∃ j cause u, it.code.arena.next? n node vs' = some j ∧
          it.evalWith n j t' = .error cause u) := by
  induction left : it.code.arena.partLimit n node - vs.length generalizing done vs t with
  | zero =>
    refine ⟨done, vs, t, h, .inl (Option.eq_none_iff_forall_ne_some.mpr fun j hj => ?_)⟩
    have := Arena.length_lt_of_next? hj
    omega
  | succ k ih =>
    cases hj : it.code.arena.next? n node vs with
    | none => exact ⟨done, vs, t, h, .inl hj⟩
    | some j =>
      cases given : it.evalWith n j t with
      | error cause u => exact ⟨done, vs, t, h, .inr ⟨j, cause, u, hj, given⟩⟩
      | ok v u =>
        refine ih (h.next hj given) ?_
        rw [List.length_append, List.length_singleton]
        omega

end Activation

/-- A loop does not declare anything once its parts have their values. -/
theorem Interpreter.iterateAfter_ne_duplicate {test body : NodeId} {ev : NodeId → EvalM Value}
    {n : Nat} {vs : List Value} {s t : State} {p : String}
    (last : Node.nextInLoop test body n vs = none) :
    iterateAfter (ev test) (ev body) n vs s ≠
      .error (.error (.duplicateDeclaration p)) t := by
  fun_induction Node.nextInLoop test body n vs with
  | case1 vs =>
    cases vs with
    | nil => rintro ⟨⟩
    | cons v vs =>
      rw [iterateAfter]
      rintro ⟨⟩
  | case2 | case3 => cases last
  | case4 n _ vs ih => exact ih last
  | case5 n v vs hbody hnext =>
    cases v with
    | bool b =>
      cases b with
      | true =>
        cases vs with
        | nil => exact absurd rfl (hbody rfl)
        | cons w vs => exact absurd rfl (hnext w vs rfl)
      | false => rintro ⟨⟩
    | _ => rintro ⟨⟩

theorem Operator.ofExcept_apply_ne_duplicate {op : Operator} {v w : Value} {s t : State}
    {p : String} :
    EvalM.ofExcept (op.apply v w) s ≠ .error (.error (.duplicateDeclaration p)) t := by
  cases happly : op.apply v w with
  | ok a => rintro ⟨⟩
  | error cause =>
    rintro ⟨⟩
    exact absurd rfl (ne_duplicateDeclaration happly p)

/-! ### Places of failed declarations -/

/-- The call fails to open in the state `t` because the parameter `x` has the name of an earlier
one. -/
def Interpreter.Repeats (it : Interpreter) (c : Closure) (args : List Value) (s : State) (x : Name)
    (t : State) : Prop :=
  (∃ j, FirstRepeat c.params j x) ∧
    it.openCall c args s = .error (.error (.duplicateDeclaration (it.names.lookup x))) t

theorem Interpreter.exists_repeats {it : Interpreter} {c : Closure} {args : List Value}
    {s t : State} {p : String}
    (h : it.openCall c args s = .error (.error (.duplicateDeclaration p)) t) :
    ∃ x, it.Repeats c args s x t ∧ it.names.lookup x = p := by
  obtain ⟨-, -, j, x, first, rfl, -⟩ := openCall_duplicate_iff.mp h
  exact ⟨x, ⟨⟨j, first⟩, h⟩, rfl⟩

namespace Activation

/-- The evaluation itself declares the name `x` a second time, in the state `t`: as a variable of
its scope, or as a parameter of a closure that it calls. -/
inductive Redeclares : Activation → Name → State → Prop where
  | declaration {n : Nat} {it : Interpreter} {id e : NodeId} {x : Name} {s t : State}
      {done : List Activation} {v : Value} (hold : it.code.arena.Holds id (.declare x e))
      (before : Partway n it (.declare x e) s done [v] t)
      (taken : t.store.bindsLocally it.env x = true) : Redeclares ⟨n + 1, it, id, s⟩ x t
  | parameter {n : Nat} {it : Interpreter} {id f : NodeId} {span : Span} {ids : List NodeId}
      {x : Name} {s t u : State} {done : List Activation} {c : Closure} {vs : List Value}
      (hold : it.code.arena.Holds id (.call f span))
      (hids : it.code.arena.arguments? span = some ids) (all : vs.length = ids.length)
      (before : Partway n it (.call f span) s done (.closure c :: vs) t)
      (repeated : it.Repeats c vs t x u) : Redeclares ⟨n + 1, it, id, s⟩ x u

/-- The evaluation fails in the state `t` because it, or an evaluation inside it, declares the name
`x` a second time. -/
def FailsAt (τ : Activation) (x : Name) (t : State) : Prop :=
  ∃ done σ, Visits τ done σ ∧ σ.Redeclares x t

variable {n : Nat} {it : Interpreter} {id : NodeId} {node : Node} {s t u : State}
  {τ σ : Activation} {done : List Activation} {vs : List Value} {x : Name} {p : String}

theorem Starts.failsAt (h : Starts τ done σ) (fails : σ.FailsAt x t) : τ.FailsAt x t := by
  obtain ⟨done', ρ, visits, declares⟩ := fails
  exact ⟨_, ρ, .step h visits, declares⟩

/-- An evaluation and those that it starts use the same interner. -/
theorem Starts.names_eq (h : Starts τ done σ) : σ.it.names = τ.it.names := by
  cases h with
  | part => rfl
  | enters h => cases h <;> rfl

/-- A declaration whose value is there fails only if its scope has the name. -/
theorem redeclares_of_declare {e : NodeId} {v : Value}
    (hold : it.code.arena.Holds id (.declare x e))
    (before : Partway n it (.declare x e) s done [v] t)
    (h : run ⟨n + 1, it, id, s⟩ = .error (.error (.duplicateDeclaration p)) u) :
    Redeclares ⟨n + 1, it, id, s⟩ x u ∧ it.names.lookup x = p := by
  have declared := (before.run_eq hold).trans (it.declare_run x v t)
  rw [h] at declared
  split at declared
  next taken =>
    cases declared
    exact ⟨.declaration hold before taken, rfl⟩
  next => cases declared

/-- A call whose callee and arguments are there fails because of a parameter or comes down to the
body of its closure. -/
theorem redeclares_or_enters_call {f : NodeId} {span : Span} {ids : List NodeId} {c : Closure}
    (hold : it.code.arena.Holds id (.call f span))
    (hids : it.code.arena.arguments? span = some ids)
    (before : Partway n it (.call f span) s done (.closure c :: vs) t)
    (all : vs.length = ids.length)
    (h : run ⟨n + 1, it, id, s⟩ = .error (.error (.duplicateDeclaration p)) u) :
    (∃ x, Redeclares ⟨n + 1, it, id, s⟩ x u ∧ it.names.lookup x = p) ∨
      ∃ done σ, Enters ⟨n + 1, it, id, s⟩ done σ := by
  cases opened : it.openCall c vs t with
  | ok scope t' => exact .inr ⟨_, _, .call hold hids all before opened⟩
  | error cause t' =>
    rw [before.run_eq hold, Interpreter.evalAfter_call hids, all, List.drop_length,
      Interpreter.callRest_nil, Interpreter.apply_eq_openCall, EvalM.bind_of_error opened] at h
    cases h
    obtain ⟨x, repeated, hx⟩ := Interpreter.exists_repeats opened
    exact .inl ⟨x, .parameter hold hids all before repeated, hx⟩

/-- A node whose parts have their values fails because of a declaration only if it declares a name
a second time itself, or comes down to an evaluation in a new scope. -/
theorem redeclares_or_enters (hold : it.code.arena.Holds id node)
    (before : Partway n it node s done vs t) (last : it.code.arena.next? n node vs = none)
    (h : run ⟨n + 1, it, id, s⟩ = .error (.error (.duplicateDeclaration p)) u) :
    (∃ x, Redeclares ⟨n + 1, it, id, s⟩ x u ∧ it.names.lookup x = p) ∨
      ∃ done σ, Enters ⟨n + 1, it, id, s⟩ done σ := by
  have hrest := (before.run_eq hold).symm.trans h
  cases node with
  | int _ | bool _ | null | ident _ =>
    cases vs with
    | nil => cases hrest
    | cons v vs => cases hrest
  | print e | assign x e =>
    match vs, last with
    | [_], _ | _ :: _ :: _, _ => cases hrest
  | binary op l r =>
    match vs, last with
    | [v, w], _ => exact absurd hrest Operator.ofExcept_apply_ne_duplicate
    | _ :: _ :: _ :: _, _ => cases hrest
  | cond c yes no =>
    match vs, last with
    | [.bool true], last | [.bool false], last => cases last
    | [.int _], _ | [.null], _ | [.closure _], _ => cases hrest
    | [_, _], _ | _ :: _ :: _ :: _, _ => cases hrest
  | loop c b => exact absurd hrest (Interpreter.iterateAfter_ne_duplicate last)
  | seq a b =>
    match vs, last with
    | [_, _], _ | _ :: _ :: _ :: _, _ => cases hrest
  | block e =>
    cases vs with
    | nil => exact .inr ⟨_, _, .block hold⟩
    | cons v vs => cases hrest
  | declare x e =>
    match vs, last with
    | [v], _ => exact .inl ⟨x, redeclares_of_declare hold before h⟩
    | _ :: _ :: _, _ => cases hrest
  | function span body =>
    cases vs with
    | nil =>
      rw [Interpreter.evalAfter_nil, Interpreter.evalNode] at hrest
      cases hparams : it.code.arena.parameters? span <;> rw [hparams] at hrest <;> cases hrest
    | cons v vs => cases hrest
  | call f span =>
    match vs, last with
    | .int _ :: _, _ | .bool _ :: _, _ | .null :: _, _ => cases hrest
    | .closure c :: vs, last =>
      cases hids : it.code.arena.arguments? span with
      | none =>
        simp only [Interpreter.evalAfter, hids] at hrest
        cases hrest
      | some ids =>
        have hle := before.length_le
        simp only [Arena.next?, hids, Option.bind_some, List.getElem?_eq_none_iff] at last
        simp only [Arena.partLimit, Arena.parts, hids, Option.getD_some, List.length_cons] at hle
        exact redeclares_or_enters_call hold hids before (by omega) h

/-- Nothing is declared where there is no node. -/
theorem exists_holds (h : run ⟨n + 1, it, id, s⟩ = .error (.error (.duplicateDeclaration p)) t) :
    ∃ node, it.code.arena.Holds id node := by
  rw [run, Interpreter.evalWith_succ, Interpreter.evalStep] at h
  split at h
  next present =>
    cases hnode : it.code.arena.node? id with
    | some node => exact ⟨node, present, hnode⟩
    | none =>
      rw [hnode] at h
      cases h
  next => cases h

/-- A failed declaration comes from a place where a name is declared a second time, and the string
of this name is reported. -/
theorem exists_failsAt (h : τ.run = .error (.error (.duplicateDeclaration p)) t) :
    ∃ x, τ.FailsAt x t ∧ τ.it.names.lookup x = p := by
  induction hn : τ.fuel generalizing τ with
  | zero =>
    rw [run, hn] at h
    cases h
  | succ n ih =>
    obtain ⟨_, it, id, s⟩ := τ
    obtain rfl : _ = n + 1 := hn
    have inside : ∀ {done σ}, Starts ⟨n + 1, it, id, s⟩ done σ → σ.fuel = n →
        σ.run = .error (.error (.duplicateDeclaration p)) t →
        ∃ x, FailsAt ⟨n + 1, it, id, s⟩ x t ∧ it.names.lookup x = p := by
      intro done σ starts fuel failed
      obtain ⟨x, fails, hx⟩ := ih failed fuel
      rw [starts.names_eq] at hx
      exact ⟨x, starts.failsAt fails, hx⟩
    obtain ⟨node, hold⟩ := exists_holds h
    -- either a part fails, or the node itself does once its parts have their values
    have begun : Partway n it node s [] [] s := .start
    obtain ⟨done, vs, u, before, last | ⟨j, cause, u', hj, failed⟩⟩ := begun.exists_last
    · rcases redeclares_or_enters hold before last h with ⟨x, declares, hx⟩ | ⟨done', σ, enters⟩
      · exact ⟨x, ⟨_, _, .refl _, declares⟩, hx⟩
      · refine inside (.enters enters) ?_ (enters.run_eq ▸ h)
        cases enters <;> rfl
    · refine inside (.part hold before hj) rfl ?_
      rw [before.run_eq hold, Interpreter.evalAfter_next hj, EvalM.bind_of_error failed] at h
      cases h
      exact failed

end Activation

namespace Interpreter

variable {n : Nat} {it : Interpreter} {f : Value} {args : List Value} {s t : State} {p : String}

/-- The call fails in the state `t` because a parameter or a declaration inside the body declares
the name `x` a second time. -/
def CallFailsAt (it : Interpreter) (n : Nat) (f : Value) (args : List Value) (s : State) (x : Name)
    (t : State) : Prop :=
  ∃ c, f = .closure c ∧ (it.Repeats c args s x t ∨
    ∃ scope u, it.openCall c args s = .ok scope u ∧
      Activation.FailsAt ⟨n, it.enter c scope, c.body, u⟩ x t)

theorem exists_callFailsAt
    (h : it.callWith n f args s = .error (.error (.duplicateDeclaration p)) t) :
    ∃ x, it.CallFailsAt n f args s x t ∧ it.names.lookup x = p := by
  cases f with
  | closure c =>
    rw [callWith, apply_eq_openCall] at h
    cases opened : it.openCall c args s with
    | ok scope u =>
      rw [EvalM.bind_of_ok opened] at h
      obtain ⟨x, fails, hx⟩ :=
        Activation.exists_failsAt (τ := ⟨n, it.enter c scope, c.body, u⟩) h
      exact ⟨x, ⟨c, rfl, .inr ⟨scope, u, opened, fails⟩⟩, hx⟩
    | error cause u =>
      rw [EvalM.bind_of_error opened] at h
      cases h
      obtain ⟨x, repeated, hx⟩ := exists_repeats opened
      exact ⟨x, ⟨c, rfl, .inl repeated⟩, hx⟩
  | _ => cases h

end Interpreter

end Treewalk
