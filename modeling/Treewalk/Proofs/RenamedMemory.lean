import Treewalk.Proofs.Renaming
import Treewalk.Proofs.Representation

/-! Data and memories that are the same up to the renaming of a parameter. Both runs number their
scopes alike. A scope outside the literal has the same variables in both, a scope inside it has
variables whose names correspond, and a scope that a call of the literal opened has the parameter,
so that what is looked up inside the literal under either name is found before the scopes outside.
-/

namespace Treewalk

/-- The scopes `env` lie around code outside or inside the literal. -/
inductive EnvWithin (places : List Place) : Bool → List ScopeId → Prop where
  | nil : EnvWithin places false []
  | cons {i place e env} (there : places[e]? = some place) (within : place.Within i)
      (around : EnvWithin places i env) : EnvWithin places place.inner (e :: env)

/-- The closures are the same up to the renaming. -/
structure Lambda.Renamed (p q : String) (places : List Place) (f g : Lambda) : Prop where
  id : f.id = g.id
  env : f.env = g.env
  code : ∃ i place, EnvWithin places i f.env ∧ Opens p q i place f.params g.params ∧
    Tree.Renamed p q place.inner f.body g.body

inductive Datum.Renamed (p q : String) (places : List Place) : Datum → Datum → Prop where
  | int {n} : Datum.Renamed p q places (.int n) (.int n)
  | bool {b} : Datum.Renamed p q places (.bool b) (.bool b)
  | null : Datum.Renamed p q places .null .null
  | lambda {f g} (h : f.Renamed p q places g) : Datum.Renamed p q places (.lambda f) (.lambda g)

/-- Every scope has the same variables in both memories, up to the renaming. -/
structure Memory.SameVars (p q : String) (places : List Place) (μ ν : Memory) : Prop where
  length : places.length = μ.scopes.length
  length' : places.length = ν.scopes.length
  lambdas : μ.lambdas = ν.lambdas
  output : μ.output = ν.output
  vars : ∀ e place, places[e]? = some place → ∀ x y, SameName p q place.inner x y →
    Option.Rel (Datum.Renamed p q places) (μ.vars e x) (ν.vars e y)

/-- The memories are the same up to the renaming, and every call of the literal has declared its
parameters. -/
structure Memory.Renamed (p q : String) (places : List Place) (μ ν : Memory) : Prop
    extends SameVars p q places μ ν where
  entry : ∀ e, places[e]? = some .entry → (μ.vars e p).isSome

variable {p q : String} {places places' : List Place} {i : Bool}

/-! ### Growth and symmetry -/

theorem EnvWithin.mono {env : List ScopeId} (h : EnvWithin places i env)
    (grown : places <+: places') : EnvWithin places' i env := by
  induction h with
  | nil => exact .nil
  | cons there within _ ih =>
    obtain ⟨more, rfl⟩ := grown
    have hlt := (List.getElem?_eq_some_iff.mp there).1
    exact .cons ((List.getElem?_append_left hlt).trans there) within ih

namespace Lambda.Renamed

variable {f g : Lambda}

theorem mono (h : f.Renamed p q places g) (grown : places <+: places') :
    f.Renamed p q places' g := by
  obtain ⟨i, place, around, params, body⟩ := h.code
  exact ⟨h.id, h.env, i, place, around.mono grown, params, body⟩

theorem symm (h : f.Renamed p q places g) : g.Renamed q p places f := by
  obtain ⟨i, place, around, params, body⟩ := h.code
  exact ⟨h.id.symm, h.env.symm, i, place, h.env ▸ around, params.symm, body.symm⟩

theorem arity_eq (h : f.Renamed p q places g) : f.params.length = g.params.length := by
  obtain ⟨_, _, _, params, _⟩ := h.code
  exact params.names.length_eq

end Lambda.Renamed

namespace Datum.Renamed

variable {d d' e e' : Datum}

theorem mono (h : d.Renamed p q places d') (grown : places <+: places') :
    d.Renamed p q places' d' := by
  cases h with
  | lambda h => exact .lambda (h.mono grown)
  | int => exact .int
  | bool => exact .bool
  | null => exact .null

theorem symm (h : d.Renamed p q places d') : d'.Renamed q p places d := by
  cases h with
  | lambda h => exact .lambda h.symm
  | int => exact .int
  | bool => exact .bool
  | null => exact .null

theorem typeName (h : d.Renamed p q places d') : d.typeName = d'.typeName := by
  cases h <;> rfl

theorem display (h : d.Renamed p q places d') : d.display = d'.display := by
  cases h with
  | lambda h => rw [Datum.display, Datum.display, h.arity_eq]
  | _ => rfl

theorem same (h : d.Renamed p q places d') (h' : e.Renamed p q places e') :
    d.same e = d'.same e' := by
  cases h with
  | @lambda f g h =>
    cases h' with
    | @lambda f' g' h' =>
      show (f.id == f'.id) = (g.id == g'.id)
      rw [h.id, h'.id]
    | _ => rfl
  | _ => cases h' <;> rfl

theorem getD {o o' : Option Datum} (h : Option.Rel (Datum.Renamed p q places) o o') :
    (o.getD .null).Renamed p q places (o'.getD .null) := by
  cases h with
  | some h => exact h
  | none => exact .null

end Datum.Renamed

/-- The ends of the two runs: corresponding data, or the same error, in which a duplicate
declaration of `p` becomes one of `q`. -/
inductive Answer.Renamed (p q : String) (places : List Place) :
    Except EvalError Datum → Except EvalError Datum → Prop where
  | ok {d d' : Datum} (h : d.Renamed p q places d') : Answer.Renamed p q places (.ok d) (.ok d')
  | error {c : EvalError} : Answer.Renamed p q places (.error c) (.error c)
  | duplicate : Answer.Renamed p q places (.error (.duplicateDeclaration p))
      (.error (.duplicateDeclaration q))

theorem Answer.Renamed.symm {w w' : Except EvalError Datum} (h : Answer.Renamed p q places w w') :
    Answer.Renamed q p places w' w := by
  cases h with
  | ok h => exact .ok h.symm
  | error => exact .error
  | duplicate => exact .duplicate

theorem Answer.renamed_duplicate {x y : String} (h : SameName p q i x y) :
    Answer.Renamed p q places (.error (.duplicateDeclaration x))
      (.error (.duplicateDeclaration y)) := by
  cases i with
  | false =>
    obtain rfl : x = y := h
    exact .error
  | true =>
    rcases h with ⟨rfl, rfl⟩ | ⟨_, _, rfl⟩
    · exact .duplicate
    · exact .error

theorem Operator.onInts_renamed (op : Operator) (a b : Int) :
    Answer.Renamed p q places (op.onInts a b) (op.onInts a b) := by
  cases op with
  | div | mod =>
    simp only [onInts]
    split
    · exact .error
    · exact .ok .int
  | add | sub | mul => exact .ok .int
  | _ => exact .ok .bool

theorem Operator.onData_renamed (op : Operator) (token : String) {d d' e e' : Datum}
    (h : d.Renamed p q places d') (h' : e.Renamed p q places e') :
    Answer.Renamed p q places (op.onData token d e) (op.onData token d' e') := by
  unfold onData
  by_cases hop : op = eq
  · rw [if_pos hop, if_pos hop, h.same h']
    exact .ok .bool
  · rw [if_neg hop, if_neg hop]
    cases h with
    | @int a =>
      cases h' with
      | @int b => exact op.onInts_renamed a.toInt b.toInt
      | _ => exact .error
    | _ => exact .error

namespace Memory

theorem SameVars.symm {μ ν : Memory} (h : SameVars p q places μ ν) : SameVars q p places ν μ where
  length := h.length'
  length' := h.length
  lambdas := h.lambdas.symm
  output := h.output.symm
  vars e place there x y name :=
    (h.vars e place there y x name.symm).flip.imp fun _ _ hd => hd.symm

theorem Renamed.symm {μ ν : Memory} (h : Renamed p q places μ ν) : Renamed q p places ν μ where
  toSameVars := h.toSameVars.symm
  entry e there := by
    rw [← (h.vars e .entry there p q (.inl ⟨rfl, rfl⟩)).isSome_eq]
    exact h.entry e there

/-! ### Variables -/

variable {μ ν : Memory} {e : ScopeId} {place : Place} {env : List ScopeId} {x y : String}
  {d d' : Datum}

theorem SameVars.set (h : SameVars p q places μ ν) (there : places[e]? = some place)
    (name : SameName p q place.inner x y) (hd : d.Renamed p q places d') :
    SameVars p q places (μ.set e x d) (ν.set e y d') where
  length := h.length.trans (length_set ..).symm
  length' := h.length'.trans (length_set ..).symm
  lambdas := h.lambdas
  output := h.output
  vars b place' there' x' y' name' := by
    rw [vars_set, vars_set, ← h.length, ← h.length']
    by_cases hb : b = e
    · subst hb
      obtain rfl : place' = place := Option.some.inj (there'.symm.trans there)
      simp only [name.eq_iff name']
      split
      · exact .some hd
      · exact h.vars b place' there' x' y' name'
    · rw [if_neg (fun hset => hb hset.1), if_neg (fun hset => hb hset.1)]
      exact h.vars b place' there' x' y' name'

theorem isSome_vars_set {b : ScopeId} (bound : (μ.vars b y).isSome) :
    ((μ.set e x d).vars b y).isSome := by
  rw [vars_set]
  split
  · rfl
  · exact bound

theorem Renamed.set (h : Renamed p q places μ ν) (there : places[e]? = some place)
    (name : SameName p q place.inner x y) (hd : d.Renamed p q places d') :
    Renamed p q places (μ.set e x d) (ν.set e y d') where
  toSameVars := h.toSameVars.set there name hd
  entry b hb := isSome_vars_set (h.entry b hb)

theorem SameVars.next_eq (h : SameVars p q places μ ν) : μ.next = ν.next := by
  rw [next, next, ← h.length, ← h.length']

theorem SameVars.push (h : SameVars p q places μ ν) (place : Place) :
    SameVars p q (places ++ [place]) μ.push ν.push where
  length := by simp [Memory.push, h.length]
  length' := by simp [Memory.push, h.length']
  lambdas := h.lambdas
  output := h.output
  vars e place' there x y name := by
    have grown : places <+: places ++ [place] := ⟨[place], rfl⟩
    rw [vars_push, vars_push]
    by_cases hlt : e < places.length
    · rw [List.getElem?_append_left hlt] at there
      exact (h.vars e place' there x y name).imp fun _ _ hd => hd.mono grown
    · -- the new scope has no variables yet
      have hμ : μ.scopes.length ≤ e := h.length ▸ Nat.le_of_not_lt hlt
      have hν : ν.scopes.length ≤ e := h.length' ▸ Nat.le_of_not_lt hlt
      rw [Memory.vars, Memory.vars, List.getElem?_eq_none hμ, List.getElem?_eq_none hν]
      exact .none

theorem Renamed.push (h : Renamed p q places μ ν) (notEntry : place ≠ .entry) :
    Renamed p q (places ++ [place]) μ.push ν.push where
  toSameVars := h.toSameVars.push place
  entry e there := by
    rw [vars_push]
    by_cases hlt : e < places.length
    · rw [List.getElem?_append_left hlt] at there
      exact h.entry e there
    · rw [List.getElem?_append_right (Nat.le_of_not_lt hlt), List.getElem?_singleton] at there
      split at there
      · exact absurd (Option.some.inj there) notEntry
      · cases there

/-- Where a scope does not have a name, the name corresponds in the code around the scope. -/
theorem Renamed.outwards (h : Renamed p q places μ ν) (there : places[e]? = some place)
    (within : place.Within i) (free : (μ.vars e x).isSome = false)
    (name : SameName p q place.inner x y) : SameName p q i x y := by
  refine name.outwards within ?_
  rintro rfl rfl
  rw [h.entry e there] at free
  cases free

/-- A name is found in the same scope by both programs: inside the literal, `p` and `q` are found at
the latest in the scope of the call. -/
theorem Renamed.resolve (h : Renamed p q places μ ν) (around : EnvWithin places i env)
    (name : SameName p q i x y) :
    Option.Rel (Datum.Renamed p q places) (μ.resolve env x) (ν.resolve env y) := by
  induction around with
  | nil => exact .none
  | @cons i place e env there within _ ih =>
    rw [resolve_cons, resolve_cons]
    exact (h.vars e place there x y name).or fun free => ih (h.outwards there within free name)

/-- An assignment changes the same scope in both programs, one where the names correspond. -/
theorem Renamed.target? (h : Renamed p q places μ ν) (around : EnvWithin places i env)
    (name : SameName p q i x y) :
    μ.target? env x = ν.target? env y ∧
      ∀ b, μ.target? env x = some b →
        ∃ place, places[b]? = some place ∧ SameName p q place.inner x y := by
  induction around with
  | nil => exact ⟨rfl, by simp [Memory.target?]⟩
  | @cons i place e env there within _ ih =>
    rw [target?_cons, target?_cons, ← (h.vars e place there x y name).isSome_eq]
    cases bound : (μ.vars e x).isSome with
    | true =>
      rw [if_pos rfl, if_pos rfl]
      refine ⟨rfl, fun b hb => ?_⟩
      obtain rfl := Option.some.inj hb
      exact ⟨place, there, name⟩
    | false =>
      rw [if_neg Bool.false_ne_true, if_neg Bool.false_ne_true]
      obtain ⟨hsame, hplace⟩ := ih (h.outwards there within bound name)
      rw [← hsame]
      refine ⟨rfl, fun b hb => ?_⟩
      cases htarget : μ.target? env x with
      | some b' =>
        rw [htarget] at hb
        exact hplace b (htarget.trans hb)
      | none =>
        rw [htarget] at hb
        obtain rfl : e = b := Option.some.inj hb
        exact ⟨place, there, name⟩

theorem Renamed.assign (h : Renamed p q places μ ν) (around : EnvWithin places i env)
    (name : SameName p q i x y) (hd : d.Renamed p q places d') :
    Renamed p q places (μ.assign env x d) (ν.assign env y d') := by
  obtain ⟨hsame, hplace⟩ := h.target? around name
  unfold Memory.assign
  rw [← hsame]
  cases htarget : μ.target? env x with
  | some b =>
    obtain ⟨place, there, hname⟩ := hplace b htarget
    exact h.set there hname hd
  | none => exact h

theorem Renamed.print (h : Renamed p q places μ ν) (line : String) :
    Renamed p q places (μ.print line) (ν.print line) :=
  ⟨⟨h.length, h.length', h.lambdas, congrArg (· ++ [line]) h.output, h.vars⟩, h.entry⟩

theorem Renamed.addLambda (h : Renamed p q places μ ν) :
    Renamed p q places μ.addLambda ν.addLambda :=
  ⟨⟨h.length, h.length', congrArg (· + 1) h.lambdas, h.output, h.vars⟩, h.entry⟩

/-! ### Calls -/

/-- A new scope lies inside the scopes around it. -/
theorem SameVars.around (h : SameVars p q places μ ν) (around : EnvWithin places i env)
    (within : place.Within i) : EnvWithin (places ++ [place]) place.inner (μ.next :: env) := by
  refine .cons ?_ within (around.mono (List.prefix_append places [place]))
  rw [next, ← h.length, List.getElem?_concat_length]

theorem SameVars.declareAll (h : SameVars p q places μ ν) (there : places[e]? = some place)
    {xs ys : List String} {ds ds' : List Datum}
    (names : List.Forall₂ (SameName p q place.inner) xs ys)
    (values : List.Forall₂ (Datum.Renamed p q places) ds ds') :
    Option.Rel (SameName p q place.inner) (μ.declareAll e (xs.zip ds)).1
        (ν.declareAll e (ys.zip ds')).1 ∧
      SameVars p q places (μ.declareAll e (xs.zip ds)).2 (ν.declareAll e (ys.zip ds')).2 := by
  induction names generalizing ds ds' μ ν with
  | nil => exact ⟨.none, h⟩
  | @cons x y xs ys name _ ih =>
    cases values with
    | nil => exact ⟨.none, h⟩
    | cons hd values =>
      simp only [List.zip_cons_cons, Memory.declareAll, (h.vars e place there x y name).isSome_eq]
      split
      · exact ⟨.some name, h⟩
      · exact ih (h.set there name hd) values

theorem isSome_vars_declareAll (bindings : List (String × Datum)) {b : ScopeId}
    (bound : (μ.vars b x).isSome) : ((μ.declareAll e bindings).2.vars b x).isSome := by
  induction bindings generalizing μ with
  | nil => exact bound
  | cons binding bindings ih =>
    obtain ⟨y, d⟩ := binding
    rw [Memory.declareAll]
    split
    · exact bound
    · exact ih (isSome_vars_set bound)

/-- Once all parameters are declared, each of them is there. -/
theorem isSome_vars_of_declareAll {xs : List String} {ds : List Datum} {μ' : Memory}
    (declared : μ.declareAll e (xs.zip ds) = (none, μ')) (there : e < μ.scopes.length)
    (fits : ds.length = xs.length) (hx : x ∈ xs) : (μ'.vars e x).isSome := by
  induction xs generalizing ds μ with
  | nil => cases hx
  | cons y xs ih =>
    cases ds with
    | nil => cases fits
    | cons d ds =>
      rw [List.zip_cons_cons, Memory.declareAll] at declared
      split at declared
      · cases declared
      · rcases List.mem_cons.mp hx with rfl | hx
        · have bound : ((μ.set e x d).vars e x).isSome := by
            rw [vars_set, if_pos ⟨rfl, there, rfl⟩]
            rfl
          have kept := isSome_vars_declareAll (e := e) (xs.zip ds) bound
          rwa [declared] at kept
        · exact ih declared (by rwa [length_set]) (Nat.succ.inj fits) hx

/-- A call whose parameters could be declared opens a scope where its place says. -/
theorem Renamed.declared (h : Renamed p q places μ ν) {ps ps' : List String} {ds ds' : List Datum}
    {μ' : Memory} (params : Opens p q i place ps ps')
    (values : List.Forall₂ (Datum.Renamed p q places) ds ds') (fits : ds.length = ps.length)
    (declared : μ.push.declareAll μ.next (ps.zip ds) = (none, μ')) :
    ∃ ν', ν.push.declareAll ν.next (ps'.zip ds') = (none, ν') ∧
      Renamed p q (places ++ [place]) μ' ν' := by
  have grown : places <+: places ++ [place] := ⟨[place], rfl⟩
  have there : (places ++ [place])[μ.next]? = some place := by
    rw [next, ← h.length, List.getElem?_concat_length]
  obtain ⟨hname, hvars⟩ := (h.toSameVars.push place).declareAll there params.names
    (values.imp fun _ _ hd => hd.mono grown)
  rw [declared, h.next_eq] at hname hvars
  refine ⟨(ν.push.declareAll ν.next (ps'.zip ds')).2, ?_, hvars, fun e hentry => ?_⟩
  · cases hrest : ν.push.declareAll ν.next (ps'.zip ds') with
    | mk taken ν' =>
      rw [hrest] at hname
      cases hname
      rfl
  · by_cases hlt : e < places.length
    · rw [List.getElem?_append_left hlt] at hentry
      have bound : (μ.push.vars e p).isSome := by
        rw [vars_push]
        exact h.entry e hentry
      have kept := isSome_vars_declareAll (e := μ.next) (ps.zip ds) bound
      rwa [declared] at kept
    · -- the new scope belongs to a call of the literal, which has the parameter
      have hlast := hentry
      rw [List.getElem?_append_right (Nat.le_of_not_lt hlt), List.getElem?_singleton] at hlast
      split at hlast
      next hzero =>
        obtain rfl : e = μ.next := by
          rw [next, ← h.length]
          exact Nat.le_antisymm (Nat.le_of_sub_eq_zero hzero) (Nat.le_of_not_lt hlt)
        have hnew : μ.next < μ.push.scopes.length := by
          rw [length_push]
          exact Nat.lt_succ_self _
        exact isSome_vars_of_declareAll declared hnew fits (params.entry (Option.some.inj hlast))
      next => cases hlast

/-- A call with a parameter that is declared already stops in both programs. -/
theorem Renamed.taken (h : Renamed p q places μ ν) {ps ps' : List String} {ds ds' : List Datum}
    {μ' : Memory} (params : Opens p q i place ps ps')
    (values : List.Forall₂ (Datum.Renamed p q places) ds ds')
    (declared : μ.push.declareAll μ.next (ps.zip ds) = (some x, μ')) :
    ∃ y ν' places', ν.push.declareAll ν.next (ps'.zip ds') = (some y, ν') ∧
      SameName p q place.inner x y ∧ places <+: places' ∧ Renamed p q places' μ' ν' := by
  -- nothing runs in the new scope, so it need not count as one of a call
  obtain ⟨place', _, hinner, hne⟩ := Place.exists_block place.inner
  have grown : places <+: places ++ [place'] := ⟨[place'], rfl⟩
  have there : (places ++ [place'])[μ.next]? = some place' := by
    rw [next, ← h.length, List.getElem?_concat_length]
  have hpush := h.push hne
  obtain ⟨hname, hvars⟩ := hpush.toSameVars.declareAll there (hinner ▸ params.names)
    (values.imp fun _ _ hd => hd.mono grown)
  rw [declared, h.next_eq] at hname hvars
  cases hrest : ν.push.declareAll ν.next (ps'.zip ds') with
  | mk taken ν' =>
    rw [hrest] at hname hvars
    cases hname with
    | some name =>
      refine ⟨_, ν', places ++ [place'], rfl, hinner ▸ name, grown, hvars, fun e hentry => ?_⟩
      have kept := isSome_vars_declareAll (e := μ.next) (ps.zip ds) (hpush.entry e hentry)
      rwa [declared] at kept

end Memory

end Treewalk
