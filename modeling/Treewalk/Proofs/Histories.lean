import Mathlib.Data.Set.Insert
import Mathlib.Logic.Relation
import Treewalk.Proofs.Reachability
import Treewalk.Proofs.Visits

/-! Histories: all that host programs and evaluations do with a store, one step after the other, in
whatever order and also halfway through evaluations. A ledger keeps what happened: which scope was
put inside which, and which closure was made under which number. Entries are only added, and every
scope and every closure that anyone gets hold of is as the ledger says. -/

namespace Treewalk

/-! ### Names of a scope -/

/-- Binding adds a name at the end, or leaves the names as they are. -/
theorem Scope.names_put (x : Name) (v : Value) (bs : List (Name × Value)) :
    (put x v bs).map Prod.fst =
      if x ∈ bs.map Prod.fst then bs.map Prod.fst else bs.map Prod.fst ++ [x] := by
  induction bs with
  | nil => rfl
  | cons b bs ih =>
    obtain ⟨y, w⟩ := b
    by_cases h : x = y
    · simp [put, h]
    · rw [put, if_neg h, List.map_cons, ih]
      simp only [List.map_cons, List.mem_cons, h, false_or]
      split <;> rfl

theorem Scope.nodup_names_put {bs : List (Name × Value)} (h : (bs.map Prod.fst).Nodup) (x : Name)
    (v : Value) : ((put x v bs).map Prod.fst).Nodup := by
  rw [names_put]
  split
  next => exact h
  next hnew =>
    refine List.nodup_append.mpr ⟨h, List.pairwise_singleton _ x, ?_⟩
    rintro y hy z hz rfl
    exact hnew (List.mem_singleton.mp hz ▸ hy)

/-! ### Ledgers -/

/-- For each scope, oldest first, the scope around it if there is one; and all closures, oldest
first. -/
structure Ledger where
  links : List (Option ScopeId) := []
  closures : List Closure := []

namespace Ledger

/-- The ledger `w'` has the entries of `w` and possibly more. -/
structure Le (w w' : Ledger) : Prop where
  links : w.links <+: w'.links
  closures : w.closures <+: w'.closures

/-- The closure is the one that was made under its number, and it captured a scope that is there. -/
structure Lists (w : Ledger) (c : Closure) : Prop where
  entry : w.closures[c.id]? = some c
  env : c.env < w.links.length

/-- The store is as the ledger says, scopes are younger than the scopes around them, and no scope
binds a name twice. -/
structure Fits (w : Ledger) (s : Store) : Prop where
  size : s.scopes.size = w.links.length
  parent : ∀ e, s.parent e = w.links[e]?.join
  ordered : s.Ordered
  nextClosure : s.nextClosure = w.closures.length
  bound : s.Meets w.Lists
  distinct : ∀ e, ((s.scope e).bindings.map Prod.fst).Nodup

variable {w w' : Ledger} {s : Store} {c : Closure} {v : Value}

namespace Le

theorem refl (w : Ledger) : w.Le w := ⟨List.prefix_refl _, List.prefix_refl _⟩

theorem trans {w'' : Ledger} (h : w.Le w') (h' : w'.Le w'') : w.Le w'' :=
  ⟨h.links.trans h'.links, h.closures.trans h'.closures⟩

theorem lt (h : w.Le w') {e : ScopeId} (he : e < w.links.length) : e < w'.links.length :=
  Nat.lt_of_lt_of_le he h.links.length_le

theorem lists (h : w.Le w') (hc : w.Lists c) : w'.Lists c := by
  refine ⟨?_, h.lt hc.env⟩
  obtain ⟨more, hmore⟩ := h.closures
  obtain ⟨hlt, _⟩ := List.getElem?_eq_some_iff.mp hc.entry
  rw [← hmore, List.getElem?_append_left hlt]
  exact hc.entry

end Le

/-- A number for a scope that is there is a number in the ledger. -/
theorem Fits.lt_iff (h : w.Fits s) {e : ScopeId} : e < s.scopes.size ↔ e < w.links.length := by
  rw [h.size]

namespace Fits

theorem empty : ({} : Ledger).Fits {} where
  size := rfl
  parent e := by
    rw [Store.parent, Store.scope_empty]
    rfl
  ordered e p hp := by
    rw [Store.parent, Store.scope_empty] at hp
    cases hp
  nextClosure := rfl
  bound := .empty
  distinct e := by
    rw [Store.scope_empty]
    exact List.nodup_nil

theorem freeze (h : w.Fits s) (a : Arena) : w.Fits (s.freeze a).2 :=
  ⟨h.size, h.parent, h.ordered, h.nextClosure, h.bound, h.distinct⟩

theorem bind (h : w.Fits s) (e : ScopeId) (x : Name) (hv : v.Meets w.Lists) :
    w.Fits (s.bind e x v) where
  size := by rw [Store.size_bind, h.size]
  parent e' := by rw [Store.parent_bind, h.parent]
  ordered := h.ordered.bind e x v
  nextClosure := h.nextClosure
  bound := h.bound.bind hv e x
  distinct e' := by
    rw [Store.scope_bind]
    split
    · exact Scope.nodup_names_put (h.distinct e') x v
    · exact h.distinct e'

theorem declare (h : w.Fits s) (e : ScopeId) (x : Name) (hv : v.Meets w.Lists) :
    w.Fits (s.declare e x v).2 := by
  unfold Store.declare
  split
  · exact h
  · exact h.bind e x hv

theorem update (h : w.Fits s) (e : ScopeId) (x : Name) (hv : v.Meets w.Lists) :
    w.Fits (s.update e x v).2 := by
  unfold Store.update
  split
  · exact h.bind _ x hv
  · exact h.bind _ x hv

/-- A new scope is entered together with the scope around it, which is older. -/
theorem alloc (h : w.Fits s) {link : Option ScopeId}
    (older : ∀ e, link = some e → e < w.links.length) :
    w.Le { w with links := w.links ++ [link] } ∧
      Fits { w with links := w.links ++ [link] } (s.alloc { parent := link }).2 := by
  have hle : w.Le { w with links := w.links ++ [link] } :=
    ⟨List.prefix_append _ _, List.prefix_refl _⟩
  have hscope : ∀ e, (s.alloc { parent := link }).2.scope e =
      if e = w.links.length then { parent := link } else s.scope e := by
    intro e
    rw [Store.scope_alloc, h.size]
  have hparent : ∀ e, (s.alloc { parent := link }).2.parent e =
      if e = w.links.length then link else s.parent e := by
    intro e
    rw [Store.parent, hscope]
    split <;> rfl
  refine ⟨hle, ⟨?_, fun e => ?_, fun e p hp => ?_, h.nextClosure, fun e x v hv => ?_, fun e => ?_⟩⟩
  · rw [Store.size_alloc, h.size, List.length_append, List.length_singleton]
  · rw [hparent, h.parent, List.getElem?_append]
    split
    next heq => simp [heq]
    next hne =>
      split
      next => rfl
      next hge =>
        have hlast : w.links.length < e :=
          Nat.lt_of_le_of_ne (Nat.le_of_not_lt hge) (Ne.symm hne)
        rw [List.getElem?_eq_none (Nat.le_of_not_lt hge), List.getElem?_eq_none (by simp; omega)]
  · rw [hparent] at hp
    split at hp
    next heq =>
      rw [heq]
      exact older p hp
    next => exact h.ordered e p hp
  · rw [Store.local?, hscope] at hv
    split at hv
    next => cases hv
    next => exact fun c hc => hle.lists (h.bound e x v hv c hc)
  · rw [hscope]
    split
    next => exact List.nodup_nil
    next => exact h.distinct e

/-- A new closure is entered under the next number. -/
theorem newClosure (h : w.Fits s) (params : List Name) (body : NodeId) {e : ScopeId} (code : Code)
    (there : e < w.links.length) :
    ∃ w', w.Le w' ∧ w'.Fits (s.newClosure params body e code).2 ∧
      w'.Lists (s.newClosure params body e code).1 := by
  let c := (s.newClosure params body e code).1
  have hle : w.Le { w with closures := w.closures ++ [c] } :=
    ⟨List.prefix_refl _, List.prefix_append _ _⟩
  refine ⟨{ w with closures := w.closures ++ [c] }, hle, ⟨h.size, h.parent, h.ordered, ?_,
    fun e x v hv c hc => hle.lists (h.bound e x v hv c hc), h.distinct⟩, ?_, there⟩
  · rw [List.length_append, List.length_singleton, ← h.nextClosure]
    rfl
  · show (w.closures ++ [c])[s.nextClosure]? = some c
    rw [h.nextClosure, List.getElem?_concat_length]

end Fits

end Ledger

/-- Evaluation goes by the ledger. -/
def ledger : Invariant Ledger where
  Le := Ledger.Le
  Holds := Ledger.Fits
  Knows w v := v.Meets w.Lists
  Runs w it _ := it.env < w.links.length
  refl := .refl
  trans := .trans
  knows_mono hle hv c hc := hle.lists (hv c hc)
  runs_mono hle := hle.lt
  data h := .of_closure? h
  bound h hv := h.bound _ _ _ hv
  part h _ _ := h
  block {w s it id e} h there _ := by
    have older : ∀ p, some it.env = some p → p < w.links.length := by
      rintro p ⟨⟩
      exact there
    obtain ⟨hle, hfits⟩ := h.alloc older
    refine ⟨_, hle, hfits, ?_⟩
    simp [h.size]
  declare h _ _ hv := h.bind _ _ hv
  assign h _ _ hv := h.update _ _ hv
  function h there _ _ := by
    obtain ⟨w', hle, hfits, hlists⟩ := h.newClosure _ _ _ there
    refine ⟨w', hle, hfits, ?_⟩
    rintro c ⟨⟩
    exact hlists
  enter {w s c} it h hc := by
    have older : ∀ p, some c.env = some p → p < w.links.length := by
      rintro p ⟨⟩
      exact (hc c rfl).env
    obtain ⟨hle, hfits⟩ := h.alloc older
    refine ⟨_, hle, hfits, ?_, fun w'' t x v _ ht _ hv => ht.bind _ x hv⟩
    simp [h.size, Interpreter.enter]

/-! ### Holdings -/

/-- The evaluation, or one inside it, gave the value. -/
def Activation.Gives (τ : Activation) (v : Value) : Prop := ∃ done ρ, Visits τ done ρ ∧ ρ.Gave v

/-- The store at some moment, the scopes and values that a host program or an evaluation under way
holds then, and all values that evaluations have given so far, also those that nobody holds any
more. -/
structure Holding where
  store : Store := {}
  scopes : Set ScopeId := ∅
  values : Set Value := ∅
  given : Set Value := ∅

namespace Holding

/-- What can happen next: scopes, closures and arenas are made, names are read and bound, a call
opens the scope for its body, an evaluation runs to its end or reaches another one inside it. The
latter has in its hands what the parts of the evaluations around it gave: callees and arguments of
the calls under way. -/
inductive Step : Holding → Holding → Prop where
  | global (h : Holding) :
      Step h { h with store := h.store.global.2, scopes := insert h.store.global.1 h.scopes }
  | child {h : Holding} {e : ScopeId} (he : e ∈ h.scopes) :
      Step h { h with
        store := (h.store.child e).2, scopes := insert (h.store.child e).1 h.scopes }
  | parent {h : Holding} {e p : ScopeId} (he : e ∈ h.scopes) (hp : h.store.parent e = some p) :
      Step h { h with scopes := insert p h.scopes }
  | captured {h : Holding} {c : Closure} (hc : .closure c ∈ h.values) :
      Step h { h with scopes := insert c.env h.scopes }
  | resolve {h : Holding} {e : ScopeId} {x : Name} {v : Value} (he : e ∈ h.scopes)
      (hv : h.store.resolve e x = some v) : Step h { h with values := insert v h.values }
  | data {h : Holding} {v : Value} (hv : v.closure? = none) :
      Step h { h with values := insert v h.values }
  | closure {h : Holding} {e : ScopeId} (he : e ∈ h.scopes) (params : List Name) (body : NodeId)
      (code : Code) :
      Step h { h with
        store := (h.store.newClosure params body e code).2
        values := insert (.closure (h.store.newClosure params body e code).1) h.values }
  | freeze (h : Holding) (a : Arena) : Step h { h with store := (h.store.freeze a).2 }
  | declare {h : Holding} {e : ScopeId} {v : Value} (he : e ∈ h.scopes) (hv : v ∈ h.values)
      (x : Name) : Step h { h with store := (h.store.declare e x v).2 }
  | update {h : Holding} {e : ScopeId} {v : Value} (he : e ∈ h.scopes) (hv : v ∈ h.values)
      (x : Name) : Step h { h with store := (h.store.update e x v).2 }
  | forget {h : Holding} {scopes : Set ScopeId} {values : Set Value} (hscopes : scopes ⊆ h.scopes)
      (hvalues : values ⊆ h.values) : Step h { h with scopes := scopes, values := values }
  | openCall {h : Holding} {c : Closure} {args : List Value} (hc : .closure c ∈ h.values)
      (hargs : ∀ v ∈ args, v ∈ h.values) (it : Interpreter) (k : Sink) :
      Step h { h with
        store := (Outcome.state (it.openCall c args ⟨h.store, k⟩)).store
        scopes := {e | Outcome.value? (it.openCall c args ⟨h.store, k⟩) = some e} ∪ h.scopes }
  | eval {h : Holding} {τ : Activation} (here : τ.state.store = h.store)
      (inside : τ.it.env ∈ h.scopes) :
      Step h { h with
        store := τ.run.state.store
        values := {v | τ.Gave v} ∪ h.values
        given := {v | τ.Gives v} ∪ h.given }
  | visit {h : Holding} {τ σ : Activation} {done : List Activation}
      (here : τ.state.store = h.store) (inside : τ.it.env ∈ h.scopes)
      (visits : Activation.Visits τ done σ) :
      Step h {
        store := σ.state.store
        scopes := insert σ.it.env h.scopes
        values := {v | ∃ δ ∈ done, δ.Gave v} ∪ h.values
        given := {v | ∃ δ ∈ done, δ.Gives v} ∪ h.given }

/-- The holding `h'` comes about from `h`. -/
def Later : Holding → Holding → Prop := Relation.ReflTransGen Step

/-- The holding comes about from nothing. -/
def Arises (h : Holding) : Prop := Later {} h

/-- The value is held, or it is bound in some scope. -/
def Has (h : Holding) (v : Value) : Prop := v ∈ h.values ∨ ∃ e x, h.store.local? e x = some v

/-! ### Holdings and ledgers -/

/-- Whatever is held is as the ledger says, and whatever was given has a number in it. -/
structure Recorded (h : Holding) (w : Ledger) : Prop where
  fits : w.Fits h.store
  scopes : ∀ e ∈ h.scopes, e < w.links.length
  values : ∀ v ∈ h.values, v.Meets w.Lists
  given : ∀ v ∈ h.given, v.Meets (·.id < w.closures.length)

variable {h h' : Holding} {w : Ledger}

theorem Recorded.has (rec : h.Recorded w) {v : Value} (hv : h.Has v) : v.Meets w.Lists := by
  rcases hv with hv | ⟨e, x, hv⟩
  · exact rec.values v hv
  · exact rec.fits.bound e x v hv

theorem Recorded.at (rec : h.Recorded w) {τ : Activation} (here : τ.state.store = h.store)
    (inside : τ.it.env ∈ h.scopes) : ledger.At w τ :=
  ⟨here ▸ rec.fits, rec.scopes _ inside⟩

/-- Values given inside an evaluation have numbers from before its end. -/
theorem id_lt_of_gives {τ : Activation} (start : ledger.At w τ) {v : Value} (gives : τ.Gives v) :
    v.Meets (·.id < τ.run.state.store.nextClosure) := by
  obtain ⟨done, ρ, visits, gave⟩ := gives
  obtain ⟨w₁, -, inside, -⟩ := start.visits visits
  obtain ⟨w₂, -, fits, hgave⟩ := inside.run
  intro c hc
  obtain ⟨hlt, _⟩ := List.getElem?_eq_some_iff.mp (hgave v gave c hc).entry
  rw [← Ledger.Fits.nextClosure fits] at hlt
  exact Nat.lt_of_lt_of_le hlt visits.within.after.closures

/-- A holding with new things that are as a longer ledger says. -/
theorem Recorded.extend (rec : h.Recorded w) {w' : Ledger} (hle : w.Le w') {s : Store}
    (fits : w'.Fits s) {scopes : Set ScopeId} {values given : Set Value}
    (hscopes : ∀ e ∈ scopes, e < w'.links.length ∨ e ∈ h.scopes)
    (hvalues : ∀ v ∈ values, v.Meets w'.Lists ∨ v ∈ h.values)
    (hgiven : ∀ v ∈ given, v.Meets (·.id < w'.closures.length) ∨ v ∈ h.given) :
    Recorded ⟨s, scopes, values, given⟩ w' := by
  refine ⟨fits, fun e he => ?_, fun v hv c hc => ?_, fun v hv c hc => ?_⟩
  · exact (hscopes e he).elim id fun he => hle.lt (rec.scopes e he)
  · exact (hvalues v hv).elim (· c hc) fun hv => hle.lists (rec.values v hv c hc)
  · exact (hgiven v hv).elim (· c hc) fun hv =>
      Nat.lt_of_lt_of_le (rec.given v hv c hc) hle.closures.length_le

/-- Another store with the same things in hand. -/
theorem Recorded.withStore (rec : h.Recorded w) {s : Store} (fits : w.Fits s) :
    Recorded { h with store := s } w :=
  rec.extend (.refl w) fits (fun _ => .inr) (fun _ => .inr) fun _ => .inr

theorem Recorded.withScope (rec : h.Recorded w) {e : ScopeId} (he : e < w.links.length) :
    Recorded { h with scopes := insert e h.scopes } w := by
  refine rec.extend (.refl w) rec.fits (fun _ he' => he'.imp_left ?_) (fun _ => .inr) fun _ => .inr
  rintro rfl
  exact he

theorem Recorded.withValue (rec : h.Recorded w) {v : Value} (hv : v.Meets w.Lists) :
    Recorded { h with values := insert v h.values } w := by
  refine rec.extend (.refl w) rec.fits (fun _ => .inr) (fun _ hv' => hv'.imp_left ?_) fun _ => .inr
  rintro rfl
  exact hv

/-- A new scope inside one that is there, or inside none. -/
theorem Recorded.alloc (rec : h.Recorded w) {link : Option ScopeId}
    (older : ∀ e, link = some e → e < w.links.length) :
    ∃ w', w.Le w' ∧ Recorded { h with
      store := (h.store.alloc { parent := link }).2
      scopes := insert (h.store.alloc { parent := link }).1 h.scopes } w' := by
  obtain ⟨hle, hfits⟩ := rec.fits.alloc older
  refine ⟨_, hle, rec.extend hle hfits (fun e he => he.imp_left ?_) (fun _ => .inr) fun _ => .inr⟩
  rintro rfl
  simp [Store.alloc, rec.fits.size]

theorem Recorded.openCall (rec : h.Recorded w) {c : Closure} (hc : .closure c ∈ h.values)
    {args : List Value} (hargs : ∀ v ∈ args, v ∈ h.values) (it : Interpreter) (k : Sink) :
    ∃ w', w.Le w' ∧ Recorded { h with
      store := (Outcome.state (it.openCall c args ⟨h.store, k⟩)).store
      scopes := {e | Outcome.value? (it.openCall c args ⟨h.store, k⟩) = some e} ∪ h.scopes }
      w' := by
  obtain ⟨w', hle, hfits, hruns⟩ := Invariant.Keeps.openCall (I := ledger) rec.fits it
    (rec.values _ hc) (fun v hv => rec.values v (hargs v hv)) k
  refine ⟨w', hle, rec.extend hle hfits (fun e he => he.imp_left fun he => ?_) (fun _ => .inr)
    fun _ => .inr⟩
  have opened : Outcome.value? (it.openCall c args ⟨h.store, k⟩) = some e := he
  cases hopen : it.openCall c args ⟨h.store, k⟩ with
  | ok scope t =>
    rw [hopen] at opened
    obtain rfl : scope = e := Option.some.inj opened
    exact hruns scope t hopen
  | error cause t =>
    rw [hopen] at opened
    cases opened

theorem Recorded.eval (rec : h.Recorded w) {τ : Activation} (here : τ.state.store = h.store)
    (inside : τ.it.env ∈ h.scopes) :
    ∃ w', w.Le w' ∧ Recorded { h with
      store := τ.run.state.store
      values := {v | τ.Gave v} ∪ h.values
      given := {v | τ.Gives v} ∪ h.given } w' := by
  have start := rec.at here inside
  obtain ⟨w', hle, hfits, hgave⟩ := start.run
  refine ⟨w', hle, rec.extend hle hfits (fun _ => .inr) (fun v hv => hv.imp_left (hgave v))
    fun v hv => hv.imp_left fun gives c hc => ?_⟩
  have hlt := id_lt_of_gives start gives c hc
  rwa [Ledger.Fits.nextClosure hfits] at hlt

theorem Recorded.visit (rec : h.Recorded w) {τ σ : Activation} {done : List Activation}
    (here : τ.state.store = h.store) (inside : τ.it.env ∈ h.scopes)
    (visits : Activation.Visits τ done σ) :
    ∃ w', w.Le w' ∧ Recorded {
      store := σ.state.store
      scopes := insert σ.it.env h.scopes
      values := {v | ∃ δ ∈ done, δ.Gave v} ∪ h.values
      given := {v | ∃ δ ∈ done, δ.Gives v} ∪ h.given } w' := by
  have start := rec.at here inside
  obtain ⟨w', hle, reached, hgave⟩ := start.visits visits
  refine ⟨w', hle, rec.extend hle reached.holds (fun e he => he.imp_left ?_)
    (fun v hv => hv.imp_left ?_) fun v hv => hv.imp_left ?_⟩
  · rintro rfl
    exact reached.runs
  · rintro ⟨δ, hδ, gave⟩
    exact hgave δ hδ v gave
  · rintro ⟨δ, hδ, gives⟩ c hc
    obtain ⟨done', visits'⟩ := visits.of_done hδ
    obtain ⟨w₁, -, started, -⟩ := start.visits visits'
    have hlt := id_lt_of_gives started gives c hc
    have hnext := (visits.within.done δ hδ).2.closures
    rw [Ledger.Fits.nextClosure reached.holds] at hnext
    exact Nat.lt_of_lt_of_le hlt hnext

/-- Whatever happens next, the ledger only has to be continued. -/
theorem Recorded.step (rec : h.Recorded w) (step : Step h h') :
    ∃ w', w.Le w' ∧ h'.Recorded w' := by
  have same : ∀ {h'' : Holding}, h''.Recorded w → ∃ w', w.Le w' ∧ h''.Recorded w' :=
    fun rec' => ⟨w, .refl w, rec'⟩
  cases step with
  | global =>
    have older : ∀ e, (none : Option ScopeId) = some e → e < w.links.length := by
      rintro _ ⟨⟩
    exact rec.alloc older
  | @child e he =>
    have older : ∀ e', some e = some e' → e' < w.links.length := by
      rintro _ ⟨⟩
      exact rec.scopes e he
    exact rec.alloc older
  | @parent e p he hp =>
    exact same (rec.withScope (Nat.lt_trans (rec.fits.ordered e p hp) (rec.scopes e he)))
  | captured hc => exact same (rec.withScope (rec.values _ hc _ rfl).env)
  | resolve _ hv => exact same (rec.withValue (rec.fits.bound.resolve hv))
  | data hv => exact same (rec.withValue (.of_closure? hv))
  | closure he params body code =>
    obtain ⟨w', hle, hfits, hlists⟩ := rec.fits.newClosure params body code (rec.scopes _ he)
    refine ⟨w', hle, rec.extend hle hfits (fun _ => .inr) (fun v hv => hv.imp_left ?_)
      fun _ => .inr⟩
    rintro rfl c ⟨⟩
    exact hlists
  | freeze a => exact same (rec.withStore (rec.fits.freeze a))
  | declare _ hv x => exact same (rec.withStore (rec.fits.declare _ x (rec.values _ hv)))
  | update _ hv x => exact same (rec.withStore (rec.fits.update _ x (rec.values _ hv)))
  | forget hscopes hvalues =>
    exact same (rec.extend (.refl w) rec.fits (fun _ he => .inr (hscopes he))
      (fun _ hv => .inr (hvalues hv)) fun _ => .inr)
  | openCall hc hargs it k => exact rec.openCall hc hargs it k
  | eval here inside => exact rec.eval here inside
  | visit here inside visits => exact rec.visit here inside visits

theorem Recorded.later (rec : h.Recorded w) (later : h.Later h') :
    ∃ w', w.Le w' ∧ h'.Recorded w' := by
  induction later with
  | refl => exact ⟨w, .refl w, rec⟩
  | tail _ step ih =>
    obtain ⟨w₁, hle₁, rec₁⟩ := ih
    obtain ⟨w₂, hle₂, rec₂⟩ := rec₁.step step
    exact ⟨w₂, hle₁.trans hle₂, rec₂⟩

/-- All that ever comes about is recorded in some ledger. -/
theorem Arises.recorded (arises : h.Arises) : ∃ w, h.Recorded w := by
  have start : Recorded {} {} := by
    refine ⟨.empty, fun e he => ?_, fun v hv => ?_, fun v hv => ?_⟩
    · exact absurd he (Set.notMem_empty e)
    · exact absurd hv (Set.notMem_empty v)
    · exact absurd hv (Set.notMem_empty v)
  obtain ⟨w, -, rec⟩ := start.later arises
  exact ⟨w, rec⟩

/-- A call by a host program comes about as well, with its result in hand. -/
theorem exists_later_call {f : Value} {args : List Value} (hf : f ∈ h.values)
    (hargs : ∀ v ∈ args, v ∈ h.values) (it : Interpreter) (n : Nat) (k : Sink) :
    ∃ h', h.Later h' ∧ h'.store = (Outcome.state (it.callWith n f args ⟨h.store, k⟩)).store ∧
      ∀ v, v ∈ h.values ∨ Outcome.value? (it.callWith n f args ⟨h.store, k⟩) = some v →
        v ∈ h'.values := by
  cases f with
  | closure c =>
    have hcall : it.callWith n (.closure c) args =
        it.openCall c args >>= fun scope => (it.enter c scope).evalWith n c.body :=
      Interpreter.apply_eq_openCall _ it c args
    have opens := Step.openCall hf hargs it k
    rw [hcall]
    cases hopen : it.openCall c args ⟨h.store, k⟩ with
    | ok scope t =>
      rw [EvalM.bind_of_ok hopen]
      rw [hopen] at opens
      refine ⟨_, .tail (.single opens) (.eval (τ := ⟨n, it.enter c scope, c.body, t⟩) rfl ?_), rfl,
        fun v hv => hv.symm⟩
      exact .inl rfl
    | error cause t =>
      rw [EvalM.bind_of_error hopen]
      rw [hopen] at opens
      exact ⟨_, .single opens, rfl, fun v hv => hv.resolve_right nofun⟩
  | _ => exact ⟨h, .refl, rfl, fun v hv => hv.resolve_right nofun⟩

end Holding

end Treewalk
