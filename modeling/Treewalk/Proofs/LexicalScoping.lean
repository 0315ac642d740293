import Treewalk.Proofs.Adequacy
import Treewalk.Proofs.RenamedMemory

/-! Names mean what the text around them says: a parameter of a function literal can be renamed
throughout the literal without any effect on what a program does. The rules take both programs
through the same steps, and what holds of the rules holds of programs that were built. -/

namespace Treewalk

variable {p q : String}

/-- The tasks are the same up to the renaming. -/
inductive Task.Renamed (p q : String) (places : List Place) (i : Bool) : Task → Task → Prop where
  | tree {t t' : Term} (h : t.Renamed p q i t') : Task.Renamed p q places i (.tree t) (.tree t')
  | call {f g : Lambda} {ds ds' : List Datum} {ts ts' : List Term} (callee : f.Renamed p q places g)
      (values : List.Forall₂ (Datum.Renamed p q places) ds ds')
      (args : Tree.Renamed p q i (.seq ts) (.seq ts')) :
      Task.Renamed p q places i (.call f ds ts) (.call g ds' ts')

/-- The rules let the task end like `w` and `μ`, up to the renaming and after scopes were added. -/
def Eval.Corresponds (p q : String) (limit : Option Nat) (depth : Nat) (env : List ScopeId)
    (task : Task) (ν : Memory) (places : List Place) (w : Except EvalError Datum) (μ : Memory) :
    Prop :=
  ∃ places' w' ν', places <+: places' ∧ Eval limit depth env task ν w' ν' ∧
    Answer.Renamed p q places' w w' ∧ Memory.Renamed p q places' μ ν'

theorem Answer.Renamed.exists_error {places : List Place} {c : EvalError}
    {w : Except EvalError Datum} (h : Answer.Renamed p q places (.error c) w) :
    ∃ c', w = .error c' := by
  cases h with
  | error => exact ⟨c, rfl⟩
  | duplicate => exact ⟨_, rfl⟩

namespace Eval.Corresponds

variable {limit : Option Nat} {depth : Nat} {env env' : List ScopeId} {task task' : Task}
  {μ ν ν' : Memory} {places places' : List Place} {w : Except EvalError Datum}

theorem of_value {d d' : Datum} (h : Eval limit depth env task ν (.ok d') ν')
    (hd : d.Renamed p q places d') (hμ : μ.Renamed p q places ν') :
    Corresponds p q limit depth env task ν places (.ok d) μ :=
  ⟨places, .ok d', ν', List.prefix_rfl, h, .ok hd, hμ⟩

theorem of_error {c c' : EvalError} (h : Eval limit depth env task ν (.error c') ν')
    (hc : Answer.Renamed p q places (.error c) (.error c')) (hμ : μ.Renamed p q places ν') :
    Corresponds p q limit depth env task ν places (.error c) μ :=
  ⟨places, .error c', ν', List.prefix_rfl, h, hc, hμ⟩

/-- A value of the one run is matched by a value of the other, and the runs go on from there. -/
theorem bind {d : Datum} {μ₁ : Memory}
    (h : Corresponds p q limit depth env' task' ν' places (.ok d) μ₁)
    (next : ∀ places' d' ν₁, places <+: places' → Eval limit depth env' task' ν' (.ok d') ν₁ →
      d.Renamed p q places' d' → μ₁.Renamed p q places' ν₁ →
      Corresponds p q limit depth env task ν places' w μ) :
    Corresponds p q limit depth env task ν places w μ := by
  obtain ⟨places₁, w₁, ν₁, grown₁, h, hw, hμ₁⟩ := h
  cases hw with
  | ok hd =>
    obtain ⟨places₂, w₂, ν₂, grown₂, h⟩ := next places₁ _ ν₁ grown₁ h hd hμ₁
    exact ⟨places₂, w₂, ν₂, grown₁.trans grown₂, h⟩

/-- A rule that ends as its last premise does. -/
theorem last {depth' : Nat} (h : Corresponds p q limit depth' env' task' ν' places w μ)
    (rule : ∀ w ν'', Eval limit depth' env' task' ν' w ν'' → Eval limit depth env task ν w ν'') :
    Corresponds p q limit depth env task ν places w μ := by
  obtain ⟨places₁, w', ν'', grown, h, hw⟩ := h
  exact ⟨places₁, w', ν'', grown, rule w' ν'' h, hw⟩

/-- A rule that passes on the error of its last premise. -/
theorem failed {c : EvalError}
    (h : Corresponds p q limit depth env task' ν' places (.error c) μ)
    (rule : ∀ c ν'', Eval limit depth env task' ν' (.error c) ν'' →
      Eval limit depth env task ν (.error c) ν'') :
    Corresponds p q limit depth env task ν places (.error c) μ := by
  obtain ⟨places₁, w', ν'', grown, h, hw, hμ⟩ := h
  obtain ⟨c', rfl⟩ := hw.exists_error
  exact ⟨places₁, .error c', ν'', grown, rule c' ν'' h, hw, hμ⟩

/-- A rule that opens a scope. -/
theorem opened {place : Place}
    (h : Corresponds p q limit depth env task ν (places ++ [place]) w μ) :
    Corresponds p q limit depth env task ν places w μ := by
  obtain ⟨places₁, w', ν', grown, h⟩ := h
  exact ⟨places₁, w', ν', (List.prefix_append places [place]).trans grown, h⟩

end Eval.Corresponds

/-- The renamed task ends where the task does, by the same rules. The places of the scopes grow
along the derivation, so what was related before stays related. -/
theorem Eval.corresponds {limit : Option Nat} {depth : Nat} {env : List ScopeId}
    {task task' : Task} {μ μ' ν : Memory} {w : Except EvalError Datum}
    (h : Eval limit depth env task μ w μ') {places : List Place} {i : Bool}
    (around : EnvWithin places i env) (hμ : μ.Renamed p q places ν)
    (same : task.Renamed p q places i task') :
    Corresponds p q limit depth env task' ν places w μ' := by
  induction h generalizing task' ν places i with
  | absent nothing =>
    cases same with
    | tree h => exact .of_value (.absent (h.isPresent_eq ▸ nothing)) .null hμ
  | int =>
    cases same with
    | tree h => cases h with
      | int => exact .of_value .int .int hμ
  | bool =>
    cases same with
    | tree h => cases h with
      | bool => exact .of_value .bool .bool hμ
  | null =>
    cases same with
    | tree h => cases h with
      | null => exact .of_value .null .null hμ
  | ident =>
    cases same with
    | tree h => cases h with
      | ident name => exact .of_value .ident (.getD (hμ.resolve around name)) hμ
  | operandError first _ ih =>
    cases same with
    | tree h =>
      obtain ⟨u', first', hu⟩ := h.operand? first
      exact (ih around hμ (.tree hu)).failed fun c ν' => .operandError first'
  | print _ ih =>
    cases same with
    | tree h => cases h with
      | print he =>
        refine (ih around hμ (.tree he)).bind fun places₁ d' ν₁ grown₁ value hd hμ₁ => ?_
        exact .of_value (.print value) hd (hd.display ▸ hμ₁.print _)
  | binary known _ _ ihl ihr =>
    cases same with
    | tree h => cases h with
      | binary hl hr =>
        refine (ihl around hμ (.tree hl)).bind fun places₁ a' ν₁ grown₁ left ha hμ₁ => ?_
        refine (ihr (around.mono grown₁) hμ₁ (.tree hr)).bind
          fun places₂ b' ν₂ grown₂ right hb hμ₂ => ?_
        exact ⟨places₂, _, ν₂, List.prefix_rfl, .binary known left right,
          Operator.onData_renamed _ _ (ha.mono grown₂) hb, hμ₂⟩
  | binaryError known _ _ ihl ihr =>
    cases same with
    | tree h => cases h with
      | binary hl hr =>
        refine (ihl around hμ (.tree hl)).bind fun places₁ a' ν₁ grown₁ left _ hμ₁ => ?_
        exact (ihr (around.mono grown₁) hμ₁ (.tree hr)).failed fun c ν₂ => .binaryError known left
  | condTrue _ _ ihc iht =>
    cases same with
    | tree h => cases h with
      | cond hc ht _ =>
        refine (ihc around hμ (.tree hc)).bind fun places₁ d' ν₁ grown₁ test hd hμ₁ => ?_
        cases hd
        exact (iht (around.mono grown₁) hμ₁ (.tree ht)).last fun w ν₂ => .condTrue test
  | condFalse _ _ ihc ihe =>
    cases same with
    | tree h => cases h with
      | cond hc _ he =>
        refine (ihc around hμ (.tree hc)).bind fun places₁ d' ν₁ grown₁ test hd hμ₁ => ?_
        cases hd
        exact (ihe (around.mono grown₁) hμ₁ (.tree he)).last fun w ν₂ => .condFalse test
  | condType _ other ihc =>
    cases same with
    | tree h => cases h with
      | cond hc _ _ =>
        refine (ihc around hμ (.tree hc)).bind fun places₁ d' ν₁ _ test hd hμ₁ => ?_
        cases hd with
        | bool => exact absurd rfl (other _)
        | _ => exact .of_error (.condType test (by simp)) .error hμ₁
  | loopDone _ ihc =>
    cases same with
    | tree h => cases h with
      | loop hc _ =>
        refine (ihc around hμ (.tree hc)).bind fun places₁ d' ν₁ _ test hd hμ₁ => ?_
        cases hd
        exact .of_value (.loopDone test) .null hμ₁
  | loopNext _ _ _ ihc ihb ih =>
    cases same with
    | tree h => cases h with
      | loop hc hb =>
        refine (ihc around hμ (.tree hc)).bind fun places₁ d' ν₁ grown₁ test hd hμ₁ => ?_
        cases hd
        have around₁ := around.mono grown₁
        refine (ihb around₁ hμ₁ (.tree hb)).bind fun places₂ d'' ν₂ grown₂ body _ hμ₂ => ?_
        exact (ih (around₁.mono grown₂) hμ₂ (.tree (.loop hc hb))).last
          fun w ν₃ => .loopNext test body
  | loopError _ _ ihc ihb =>
    cases same with
    | tree h => cases h with
      | loop hc hb =>
        refine (ihc around hμ (.tree hc)).bind fun places₁ d' ν₁ grown₁ test hd hμ₁ => ?_
        cases hd
        exact (ihb (around.mono grown₁) hμ₁ (.tree hb)).failed fun c ν₂ => .loopError test
  | loopType _ other ihc =>
    cases same with
    | tree h => cases h with
      | loop hc _ =>
        refine (ihc around hμ (.tree hc)).bind fun places₁ d' ν₁ _ test hd hμ₁ => ?_
        cases hd with
        | bool => exact absurd rfl (other _)
        | _ => exact .of_error (.loopType test (by simp)) .error hμ₁
  | pair _ _ iha ihb =>
    cases same with
    | tree h => cases h with
      | pair ha hb =>
        refine (iha around hμ (.tree ha)).bind fun places₁ d' ν₁ grown₁ first _ hμ₁ => ?_
        exact (ihb (around.mono grown₁) hμ₁ (.tree hb)).last fun w ν₂ => .pair first
  | seqSkip nothing _ ih =>
    cases same with
    | tree h => cases h with
      | seqCons ht hts =>
        exact (ih around hμ (.tree hts)).last fun w ν₁ => .seqSkip (ht.isPresent_eq ▸ nothing)
  | seqLast here none _ ih =>
    cases same with
    | tree h => cases h with
      | seqCons ht hts =>
        exact (ih around hμ (.tree ht)).last
          fun w ν₁ => .seqLast (ht.isPresent_eq ▸ here) (hts.anyPresent_eq ▸ none)
  | seqNext here more _ _ iht ihts =>
    cases same with
    | tree h => cases h with
      | seqCons ht hts =>
        refine (iht around hμ (.tree ht)).bind fun places₁ d' ν₁ grown₁ first _ hμ₁ => ?_
        exact (ihts (around.mono grown₁) hμ₁ (.tree hts)).last
          fun w ν₂ => .seqNext (ht.isPresent_eq ▸ here) (hts.anyPresent_eq ▸ more) first
  | seqError here more _ iht =>
    cases same with
    | tree h => cases h with
      | seqCons ht hts =>
        exact (iht around hμ (.tree ht)).failed
          fun c ν₁ => .seqError (ht.isPresent_eq ▸ here) (hts.anyPresent_eq ▸ more)
  | block _ ih =>
    cases same with
    | tree h => cases h with
      | block hts => exact (ih around hμ (.tree hts)).last fun w ν₁ => .block
  | scopedBlock present _ ih =>
    cases same with
    | tree h => cases h with
      | scopedBlock hts =>
        obtain ⟨place, within, rfl, hne⟩ := Place.exists_block i
        have hbody := ih (hμ.around around within) (hμ.push hne) (.tree hts)
        rw [hμ.next_eq] at hbody
        exact hbody.opened.last fun w ν₁ => .scopedBlock (hts.anyPresent_eq ▸ present)
  | declare _ fresh ih =>
    cases same with
    | tree h => cases h with
      | declare name he =>
        refine (ih around hμ (.tree he)).bind fun places₁ d' ν₁ grown₁ value hd hμ₁ => ?_
        have around₁ := around.mono grown₁
        cases around₁ with
        | cons there within rest =>
          have hfresh := (hμ₁.vars _ _ there _ _ name).isSome_eq
          rw [fresh, Option.isSome_none, eq_comm, Option.isSome_eq_false_iff,
            Option.isNone_iff_eq_none] at hfresh
          have hset := hμ₁.set there name hd
          exact .of_value (.declare value hfresh)
            (.getD (hset.resolve (.cons there within rest) name)) hset
  | duplicate _ taken ih =>
    cases same with
    | tree h => cases h with
      | declare name he =>
        refine (ih around hμ (.tree he)).bind fun places₁ d' ν₁ grown₁ value _ hμ₁ => ?_
        cases around.mono grown₁ with
        | cons there _ _ =>
          rw [(hμ₁.vars _ _ there _ _ name).isSome_eq] at taken
          exact .of_error (.duplicate value taken) (Answer.renamed_duplicate name) hμ₁
  | assign _ ih =>
    cases same with
    | tree h => cases h with
      | assign name he =>
        refine (ih around hμ (.tree he)).bind fun places₁ d' ν₁ grown₁ value hd hμ₁ => ?_
        have around₁ := around.mono grown₁
        have hassign := hμ₁.assign around₁ name hd
        exact .of_value (.assign value) (.getD (hassign.resolve around₁ name)) hassign
  | function =>
    cases same with
    | tree h => cases h with
      | function params body =>
        have hf : Datum.Renamed p q places (.lambda ⟨_, _, _, _⟩) (.lambda ⟨_, _, _, _⟩) :=
          .lambda ⟨hμ.lambdas, rfl, i, _, around, params, body⟩
        exact .of_value .function hf hμ.addLambda
  | notCallable _ other ih =>
    cases same with
    | tree h => cases h with
      | call hf _ =>
        refine (ih around hμ (.tree hf)).bind fun places₁ d' ν₁ _ callee hd hμ₁ => ?_
        cases hd with
        | lambda => exact absurd rfl (other _)
        | _ => exact .of_error (.notCallable callee (by simp)) .error hμ₁
  | call _ _ ihf ih =>
    cases same with
    | tree h => cases h with
      | call hf hargs =>
        refine (ihf around hμ (.tree hf)).bind fun places₁ d' ν₁ grown₁ callee hd hμ₁ => ?_
        cases hd with
        | lambda hg =>
          exact (ih (around.mono grown₁) hμ₁ (.call hg .nil hargs)).last fun w ν₂ => .call callee
  | argument _ _ iht ih =>
    cases same with
    | call hg values args => cases args with
      | seqCons ht hts =>
        refine (iht around hμ (.tree ht)).bind fun places₁ d' ν₁ grown₁ value hd hμ₁ => ?_
        have values₁ := values.imp fun _ _ h => h.mono grown₁
        exact (ih (around.mono grown₁) hμ₁ (.call (hg.mono grown₁)
          (List.rel_append values₁ (.cons hd .nil)) hts)).last fun w ν₂ => .argument value
  | argumentError _ iht =>
    cases same with
    | call hg values args => cases args with
      | seqCons ht hts =>
        exact (iht around hμ (.tree ht)).failed fun c ν₁ => .argumentError
  | arity differ =>
    cases same with
    | call hg values args => cases args with
      | seqNil =>
        rw [hg.arity_eq, values.length_eq] at differ ⊢
        exact .of_error (.arity differ) .error hμ
  | overflow fits bound deep =>
    cases same with
    | call hg values args => cases args with
      | seqNil =>
        rw [hg.arity_eq, values.length_eq] at fits
        exact .of_error (.overflow fits bound deep) .error hμ
  | parameter fits room declared =>
    cases same with
    | call hg values args => cases args with
      | seqNil =>
        obtain ⟨i, place, _, params, _⟩ := hg.code
        obtain ⟨y, ν', places', declared', name, grown, hμ'⟩ := hμ.taken params values declared
        rw [hg.arity_eq, values.length_eq] at fits
        exact ⟨places', _, ν', grown, .parameter fits room declared',
          Answer.renamed_duplicate name, hμ'⟩
  | body fits room declared _ ih =>
    cases same with
    | call hg values args => cases args with
      | seqNil =>
        obtain ⟨i, place, hin, params, hbody⟩ := hg.code
        obtain ⟨ν', declared', hμ'⟩ := hμ.declared params values fits declared
        rw [hg.arity_eq, values.length_eq] at fits
        have hresult := ih (hμ.around hin params.within) hμ' (.tree hbody)
        rw [hμ.next_eq, hg.env] at hresult
        exact hresult.opened.last fun w ν₂ => .body fits room declared'

/-! ### Whole programs -/

theorem Memory.renamed_start : Memory.start.Renamed p q [.outside] .start where
  length := rfl
  length' := rfl
  lambdas := rfl
  output := rfl
  vars e place _ x y _ := by
    rw [start, vars_push]
    exact .none
  entry e there := by
    cases e <;> cases there

/-- Ends of the two programs that are the same up to the renaming, with the outermost scope outside
the literal. -/
def Eval.SameEnd (p q : String) (x y : Except EvalError Datum × Memory) : Prop :=
  ∃ places, [Place.outside] <+: places ∧ Answer.Renamed p q places x.1 y.1 ∧
    x.2.Renamed p q places y.2

theorem Tree.Renamed.endAlike {t t' : Term} (h : t.Renamed p q false t') (limit : Option Nat) :
    EndAlike (Eval.SameEnd p q) (fun x => Eval limit 0 startEnv (.tree t) .start x.1 x.2)
      fun y => Eval limit 0 startEnv (.tree t') .start y.1 y.2 where
  forth x hx := by
    have around : EnvWithin [.outside] false startEnv := .cons rfl .outside .nil
    obtain ⟨places, w, ν, grown, hy, hw, hν⟩ :=
      hx.corresponds around Memory.renamed_start (.tree h)
    exact ⟨(w, ν), hy, places, grown, hw, hν⟩
  back y hy := by
    have around : EnvWithin [.outside] false startEnv := .cons rfl .outside .nil
    obtain ⟨places, w, ν, grown, hx, hw, hν⟩ :=
      hy.corresponds around Memory.renamed_start (.tree h.symm)
    exact ⟨(w, ν), hx, places, grown, hw.symm, hν.symm⟩

/-- The value of a variable of a scope, by its string. -/
def Store.named? (s : Store) (names : Interner) (e : ScopeId) (x : String) : Option Value :=
  (names.find? x).bind (s.local? e)

/-- Values of the two programs that correspond. A closure has the same identity in both, and
parameters that are the same or the same after the renaming. -/
inductive Value.Renamed (p q : String) (names names' : Interner) : Value → Value → Prop where
  | int {n : Int64} : Value.Renamed p q names names' (.int n) (.int n)
  | bool {b : Bool} : Value.Renamed p q names names' (.bool b) (.bool b)
  | null : Value.Renamed p q names names' .null .null
  | closure {c c' : Closure} (id : c.id = c'.id)
      (params : c'.params.map names'.lookup = c.params.map names.lookup ∨
        c'.params.map names'.lookup = (c.params.map names.lookup).map (replaced p q)) :
      Value.Renamed p q names names' (.closure c) (.closure c')

/-- Both programs give corresponding values or stop with the same error, in which a duplicate
declaration of `p` may become one of `q`. -/
inductive Outcome.SameResult (p q : String) (names names' : Interner) :
    Outcome Value → Outcome Value → Prop where
  | ok {v v' : Value} {s s' : State} (h : v.Renamed p q names names' v') :
      SameResult p q names names' (.ok v s) (.ok v' s')
  | error {c : EvalError} {s s' : State} :
      SameResult p q names names' (.error (.error c) s) (.error (.error c) s')
  | duplicate {s s' : State} :
      SameResult p q names names' (.error (.error (.duplicateDeclaration p)) s)
        (.error (.error (.duplicateDeclaration q)) s')

/-- The outcomes agree in their results, in what was printed and in the variables of the outermost
scope. -/
structure Outcome.Renamed (p q : String) (names names' : Interner) (r r' : Outcome Value) :
    Prop where
  result : r.SameResult p q names names' r'
  sink : r.state.sink = r'.state.sink
  globals : ∀ x, Option.Rel (Value.Renamed p q names names')
    (r.state.store.named? names ({} : Store).global.1 x)
    (r'.state.store.named? names' ({} : Store).global.1 x)

theorem Store.Represents.named? {names : Interner} {s : Store} {μ : Memory}
    (h : s.Represents names μ) (wf : names.WellFormed) (e : ScopeId) (x : String) :
    Option.Rel (Value.Represents names s) (s.named? names e x) (μ.vars e x) := by
  unfold Store.named?
  cases hx : names.find? x with
  | some y => exact h.vars e y x ((wf x y).mp hx)
  | none =>
    cases hd : μ.vars e x with
    | none => exact .none
    | some d =>
      obtain ⟨y, hy⟩ := h.named e x d hd
      rw [(wf x y).mpr hy] at hx
      cases hx

theorem Closure.Represents.map_lookup {names : Interner} {s : Store} {c : Closure} {f : Lambda}
    (h : c.Represents names s f) : c.params.map names.lookup = f.params := by
  have params := h.params
  generalize c.params = xs, f.params = ps at params
  induction params with
  | nil => rfl
  | cons hx _ ih => rw [List.map_cons, Interner.lookup_of_get? hx, ih]

theorem Opens.eq_or_eq_map {i : Bool} {place : Place} {ps ps' : List String}
    (h : Opens p q i place ps ps') : ps' = ps ∨ ps' = ps.map (replaced p q) := by
  have names := h.names
  cases hinner : place.inner with
  | false =>
    rw [hinner] at names
    exact .inl (List.forall₂_eq_eq_eq ▸ names : ps = ps').symm
  | true =>
    rw [hinner] at names
    refine .inr ?_
    clear h
    induction names with
    | nil => rfl
    | cons name _ ih => rw [List.map_cons, ← Renames.eq_replaced name, ← ih]

theorem Value.renamed_of_represents {places : List Place} {names names' : Interner} {s s' : Store}
    {v v' : Value} {d d' : Datum} (hv : v.Represents names s d) (hd : d.Renamed p q places d')
    (hv' : v'.Represents names' s' d') : v.Renamed p q names names' v' := by
  cases hv with
  | int =>
    cases hd
    cases hv'
    exact .int
  | bool =>
    cases hd
    cases hv'
    exact .bool
  | null =>
    cases hd
    cases hv'
    exact .null
  | closure hc =>
    cases hd with
    | lambda hf =>
      cases hv' with
      | closure hc' =>
        obtain ⟨_, _, _, params, _⟩ := hf.code
        refine .closure (by rw [hc.id, hf.id, hc'.id]) ?_
        rw [hc.map_lookup, hc'.map_lookup]
        exact params.eq_or_eq_map

theorem Outcome.Represents.state {names : Interner} {k : Sink} {r : Outcome Value}
    {x : Except EvalError Datum × Memory} (h : r.Represents names k x) :
    r.state.Represents names k x.2 := by
  cases h with
  | ok _ hs => exact hs
  | error hs => exact hs

theorem Outcome.renamed_of_represents {names names' : Interner} (wf : names.WellFormed)
    (wf' : names'.WellFormed) {k : Sink} {r r' : Outcome Value}
    {x y : Except EvalError Datum × Memory} (hr : r.Represents names k x)
    (same : Eval.SameEnd p q x y) (hr' : r'.Represents names' k y) :
    r.Renamed p q names names' r' := by
  obtain ⟨w, μ⟩ := x
  obtain ⟨w', ν⟩ := y
  obtain ⟨places, ⟨more, rfl⟩, hw, hμ⟩ := same
  have hs := hr.state
  have hs' := hr'.state
  refine ⟨?_, by rw [hs.sink, hs'.sink, hμ.output], fun z => ?_⟩
  · cases hr with
    | ok hv _ =>
      cases hw with
      | ok hd =>
        cases hr' with
        | ok hv' _ => exact .ok (Value.renamed_of_represents hv hd hv')
    | error _ =>
      cases hw with
      | error =>
        cases hr'
        exact .error
      | duplicate =>
        cases hr'
        exact .duplicate
  · have hvars := hμ.vars ({} : Store).global.1 .outside rfl z z rfl
    have hrel := ((hs.store.named? wf _ z).comp hvars).comp (hs'.store.named? wf' _ z).flip
    refine hrel.imp ?_
    rintro v v' ⟨d', ⟨d, hv, hd⟩, hv'⟩
    exact Value.renamed_of_represents hv hd hv'

/-- Renaming a parameter of a function literal has no effect on what a program does. The program
`context` has the literal in its holes; the name `q` must not occur in the literal, elsewhere it
may. -/
theorem rename_parameter (context : List (Tree Unit)) (params : List String) (body : Term)
    (hp : p ∈ params) (fresh : q ∉ (Tree.function params body).names)
    {b b' c c' : Builder} (wf : b.names.WellFormed) (wf' : b'.names.WellFormed)
    {root root' : Option NodeId}
    (built : Tree.buildProgram Empty.elim (Tree.plugAll (.function params body) context) b =
      .ok root c)
    (built' : Tree.buildProgram Empty.elim
      (Tree.plugAll (Tree.rename (replaced p q) (.function params body)) context) b' = .ok root' c')
    (fits : c.arena.size ≤ maxIndex) (fits' : c'.arena.size ≤ maxIndex) (number number' : Nat)
    (limit : Option Nat) (k : Sink) :
    EndAlike (Outcome.Renamed p q c.names c'.names)
      ((Interpreter.start c.names ⟨number, c.arena⟩ limit).Ends (.ofOption root) (.start k))
      ((Interpreter.start c'.names ⟨number', c'.arena⟩ limit).Ends (.ofOption root')
        (.start k)) := by
  obtain ⟨wfc, hroot⟩ := Tree.built_of_buildProgram wf built
  obtain ⟨wfc', hroot'⟩ := Tree.built_of_buildProgram wf' built'
  have same := Tree.renamed_plugAll (Tree.renamed_literal hp fresh) context
  have left := hroot.endAlike wfc fits number limit k
  have right := (hroot'.endAlike wfc' fits' number' limit k).symm
  refine ((left.trans (same.endAlike limit)).trans right).mono ?_
  rintro r r' ⟨y, ⟨x, hr, hxy⟩, hr'⟩
  exact Outcome.renamed_of_represents wfc wfc' hr hxy hr'

theorem buildProgram_identity {x : String} (hx : x ≠ "") :
    Tree.buildProgram Empty.elim [.print (.call (.function [x] (.ident x)) [.int 7])] {} =
      .ok (some ⟨4⟩) ⟨Interner.initial.push x,
        ⟨#[.ident ⟨1⟩, .function ⟨0, 1⟩ ⟨0⟩, .int 7, .call ⟨1⟩ ⟨0, 1⟩, .print ⟨3⟩], #[⟨2⟩],
          #[⟨1⟩]⟩⟩ := by
  have hnew : Interner.initial.find? x = none := by
    simp [Interner.initial, Interner.find?, Ne.symm hx]
  have hknown : (Interner.initial.push x).find? x = some ⟨1⟩ := by
    rw [Interner.find?_push, if_pos rfl]
    rfl
  have first : ∀ a, Builder.intern x ⟨Interner.initial, a⟩ =
      .ok ⟨1⟩ ⟨Interner.initial.push x, a⟩ := by
    intro a
    simp only [Builder.intern, Builder.onNames, Interner.intern_of_find?_eq_none hnew (by decide)]
    rfl
  have again : ∀ a, Builder.intern x ⟨Interner.initial.push x, a⟩ =
      .ok ⟨1⟩ ⟨Interner.initial.push x, a⟩ := by
    intro a
    simp only [Builder.intern, Builder.onNames, Interner.intern_of_find?_eq_some hknown]
  simp only [Tree.buildProgram, Tree.buildAll, Tree.build, Builder.ident, Builder.function,
    List.mapM_cons, List.mapM_nil, Bind.bind, EStateM.bind, Functor.map, EStateM.map, first]
  simp only [Builder.alloc, Builder.onArena, Arena.allocNode, List.size_toArray]
  simp [again]
  rfl

/-- The identity function is called with a number and the result is printed, under two names of its
parameter. -/
theorem rename_parameter_identity :
    ∃ root root' c c' s s',
      Tree.buildProgram Empty.elim [.print (.call (.function ["x"] (.ident "x")) [.int 7])] {} =
        .ok root c ∧
      Tree.buildProgram Empty.elim [.print (.call (.function ["y"] (.ident "y")) [.int 7])] {} =
        .ok root' c' ∧
      (Interpreter.start c.names ⟨0, c.arena⟩ none).Ends (.ofOption root) (.start (.buffer #[]))
        (.ok (.int 7) s) ∧
      (Interpreter.start c'.names ⟨1, c'.arena⟩ none).Ends (.ofOption root') (.start (.buffer #[]))
        (.ok (.int 7) s') ∧
      s.sink = .buffer #["7"] ∧ s'.sink = .buffer #["7"] := by
  have hbuild := buildProgram_identity (x := "x") (by decide)
  have hbuild' := buildProgram_identity (x := "y") (by decide)
  have hrenamed : Tree.plugAll (Tree.rename (replaced "x" "y") (.function ["x"] (.ident "x")))
      [.print (.call (.hole ()) [.int 7])] =
        [.print (.call (.function ["y"] (.ident "y")) [.int 7])] := by
    simp [Tree.plugAll, Tree.plug, Tree.rename, replaced]
  have alike := rename_parameter (p := "x") (q := "y") [.print (.call (.hole ()) [.int 7])] ["x"]
    (.ident "x") (by decide) (by decide) Interner.wellFormed_initial Interner.wellFormed_initial
    hbuild (by rw [hrenamed]; exact hbuild') (Nat.le_of_lt_succ (by decide))
    (Nat.le_of_lt_succ (by decide)) 0 1 none (.buffer #[])
  let a : Arena := ⟨#[.ident ⟨1⟩, .function ⟨0, 1⟩ ⟨0⟩, .int 7, .call ⟨1⟩ ⟨0, 1⟩, .print ⟨3⟩],
    #[⟨2⟩], #[⟨1⟩]⟩
  let it := Interpreter.start (Interner.initial.push "x") ⟨0, a⟩ none
  let s : State := ⟨⟨#[{}, ⟨[(⟨1⟩, .int 7)], some 0⟩], 1, 0⟩, .buffer #["7"]⟩
  have evaluated : it.evalWith 5 ⟨4⟩ (.start (.buffer #[])) = .ok (.int 7) s := by
    with_unfolding_all rfl
  have ends := Interpreter.ends_of_evalWith evaluated trivial
  obtain ⟨r, ends', same⟩ := alike.forth _ ends
  have sink := same.sink
  cases same.result with
  | ok value =>
    cases value
    exact ⟨_, _, _, _, s, _, hbuild, hbuild', ends, ends', rfl, sink.symm⟩

end Treewalk
