import Treewalk.Proofs.ParallelConstruction
import Treewalk.Proofs.Redeclaration
import Treewalk.Proofs.Sessions
import Treewalk.Proofs.SideBySide

/-! Host programs that build arenas step by step and have them evaluated. All builders and
interpreters of a host share one interner; its interpreters share scopes and pass each other the
closures that evaluations gave, whatever the arenas of these. No evaluation then looks outside the
tables of an arena: an evaluation beside itself stays among expressions, names and closures that the
host knows. -/

namespace Treewalk

/-- What a host program has so far: its interner, its arenas under construction, each with the
numbers that were given for it, its finished arenas, its store, and the values that it holds. -/
structure Host where
  names : Interner := .initial
  drafts : List (Arena × List NodeId) := []
  codes : List Code := []
  store : Store := {}
  held : List Value := []

/-- What a host program brings about. A step of construction succeeds and refers to absent nodes or
to numbers that were given for the same arena; drafts stay, so a host may go on from an earlier one.
Interpreters run in any scope, on numbers that their arena covers, and evaluations may also stop
early. -/
inductive Host.Arises : Host → Prop where
  | start : Arises {}
  | intern {h : Host} {s : String} {x : Name} {names : Interner} (arises : h.Arises)
      (done : Interner.intern s h.names = .ok x names) : Arises { h with names := names }
  | draft {h : Host} (arises : h.Arises) : Arises { h with drafts := ({}, []) :: h.drafts }
  | construct {h : Host} {a : Arena} {known : List NodeId} {root : Option NodeId} {b : Builder}
      (arises : h.Arises) (drafted : (a, known) ∈ h.drafts) (c : Construct)
      (earlier : ∀ i ∈ c.ids, i = .absent ∨ i ∈ known)
      (done : c.perform ⟨h.names, a⟩ = .ok root b) :
      Arises { h with names := b.names, drafts := (b.arena, root.toList ++ known) :: h.drafts }
  | finish {h : Host} {a : Arena} {known : List NodeId} (arises : h.Arises)
      (drafted : (a, known) ∈ h.drafts) :
      Arises { h with codes := (h.store.freeze a).1 :: h.codes, store := (h.store.freeze a).2 }
  | global {h : Host} (arises : h.Arises) : Arises { h with store := h.store.global.2 }
  | child {h : Host} (arises : h.Arises) (e : ScopeId) :
      Arises { h with store := (h.store.child e).2 }
  | declare {h : Host} {v : Value} (arises : h.Arises) (hv : v ∈ h.held) (e : ScopeId) (x : Name) :
      Arises { h with store := (h.store.declare e x v).2 }
  | update {h : Host} {v : Value} (arises : h.Arises) (hv : v ∈ h.held) (e : ScopeId) (x : Name) :
      Arises { h with store := (h.store.update e x v).2 }
  | resolve {h : Host} {e : ScopeId} {x : Name} {v : Value} (arises : h.Arises)
      (hv : h.store.resolve e x = some v) : Arises { h with held := v :: h.held }
  | data {h : Host} {v : Value} (arises : h.Arises) (hv : v.closure? = none) :
      Arises { h with held := v :: h.held }
  | forget {h : Host} {kept : List Value} (arises : h.Arises) (hkept : kept ⊆ h.held) :
      Arises { h with held := kept }
  | eval {h : Host} {it : Interpreter} {id : NodeId} (arises : h.Arises)
      (names : it.names = h.names) (code : it.code ∈ h.codes)
      (covers : it.code.arena.Covers id) (n : Nat) (k : Sink) :
      Arises { h with
        store := (Outcome.state (it.evalWith n id ⟨h.store, k⟩)).store
        held := (Outcome.value? (it.evalWith n id ⟨h.store, k⟩)).toList ++ h.held }
  | call {h : Host} {it : Interpreter} {f : Value} {args : List Value} (arises : h.Arises)
      (names : it.names = h.names) (hvs : ∀ v ∈ f :: args, v ∈ h.held) (n : Nat) (k : Sink) :
      Arises { h with
        store := (Outcome.state (it.callWith n f args ⟨h.store, k⟩)).store
        held := (Outcome.value? (it.callWith n f args ⟨h.store, k⟩)).toList ++ h.held }

/-- The arena of the closure is a finished one that covers the body, and the parameters are
known. -/
structure Closure.Legible (names : Interner) (codes : List Code) (c : Closure) : Prop where
  code : c.code ∈ codes
  body : c.code.arena.Covers c.body
  params : ∀ x ∈ c.params, names.SameText names x x

theorem Closure.Legible.mono {names names' : Interner} {codes codes' : List Code} {c : Closure}
    (h : c.Legible names codes) (keeps : names.Keeps names') (more : codes ⊆ codes') :
    c.Legible names' codes' :=
  ⟨more h.code, h.body, fun x hx => (h.params x hx).mono keeps keeps⟩

/-- The parts of every node precede it, stretches lie inside their tables, and every name that the
arena mentions is known. -/
structure Arena.Legible (names : Interner) (a : Arena) : Prop where
  founded : a.Founded
  named : a.Alike (names.SameText names) a

theorem Arena.Legible.mono {names names' : Interner} {a : Arena} (h : a.Legible names)
    (keeps : names.Keeps names') : a.Legible names' :=
  ⟨h.founded, h.named.mono fun _ _ hx => hx.mono keeps keeps⟩

/-- Whatever the host has is legible. -/
structure Host.Sound (h : Host) : Prop where
  names : h.names.WellFormed
  drafts : ∀ a known, (a, known) ∈ h.drafts → a.Legible h.names ∧ ∀ i ∈ known, a.Covers i
  codes : ∀ code ∈ h.codes, code.arena.Legible h.names
  bound : h.store.Meets (Closure.Legible h.names h.codes)
  held : ∀ v ∈ h.held, v.Meets (Closure.Legible h.names h.codes)

/-- The computation did not look outside the tables of an arena, and a declaration that failed was
one of a name whose string the interner has; this string was reported. In which state the
computation fails to declare which name is given by `FailsAt`. -/
def Outcome.Safe (names : Interner) (FailsAt : Name → State → Prop) : Outcome Value → Prop
  | .error .fault _ => False
  | .error (.error (.duplicateDeclaration p)) t => ∃ x, FailsAt x t ∧ names.get? x = some p
  | _ => True

namespace Host.Sound

variable {h : Host}

/-! ### An evaluation beside itself -/

/-- Everything that the host has, beside itself. -/
def translation (sound : h.Sound) : Translation :=
  .ofArenas sound.names sound.names (fun c₁ c₂ => c₁ = c₂ ∧ c₁ ∈ h.codes)
    (fun shared => (sound.codes _ shared.2).founded)
    fun shared => shared.1 ▸ (sound.codes _ shared.2).named

variable {sound : h.Sound} {v v' : Value} {s : Store}

theorem sameValue (hv : v.Meets (Closure.Legible h.names h.codes)) :
    sound.translation.SameValue v v := by
  cases v with
  | closure c =>
    obtain ⟨hcode, hbody, hparams⟩ := hv c rfl
    exact .closure ⟨rfl, List.forall₂_same.mpr hparams, rfl, ⟨⟨rfl, hcode⟩, hbody⟩, rfl⟩
  | _ => exact .of_data rfl

theorem meets (hv : sound.translation.SameValue v v') :
    v.Meets (Closure.Legible h.names h.codes) := by
  rintro c rfl
  cases hv with
  | closure hc =>
    have hparams := hc.params.imp fun x y (hx : h.names.SameText h.names x y) =>
      And.intro (hx.imp fun p hp => ⟨hp.1, hp.1⟩ : h.names.SameText h.names x x) hx
    exact ⟨hc.expr.1.2, hc.expr.2, ((List.forall₂_and_left _ _).mp hparams).1⟩

theorem holds (hs : s.Meets (Closure.Legible h.names h.codes)) : sound.translation.Holds s s where
  parent := by
    rintro e _ rfl
    cases s.parent e with
    | some p => exact .some rfl
    | none => exact .none
  vars := by
    rintro e _ x₁ x₂ rfl ⟨p, hx₁, hx₂⟩
    obtain rfl := sound.names.get?_inj hx₁ hx₂
    cases hv : s.local? e x₁ with
    | some v => exact .some (sameValue (hs e x₁ v hv))
    | none => exact .none
  nextScope _ := rfl
  nextClosure _ := rfl

theorem sameCaller {it : Interpreter} (names : it.names = h.names) :
    sound.translation.SameCaller it it :=
  ⟨names, names, rfl, rfl⟩

variable {r : Outcome Value} {k : Sink}

/-- What is bound to a name that the host does not know has not changed. -/
theorem store_after (sound : h.Sound)
    (together : sound.translation.Together sound.translation.SameValue h.store h.store k k r r) :
    r.state.store.Meets (Closure.Legible h.names h.codes) := by
  intro e x v hv
  by_cases known : ∃ y, h.names.SameText h.names x y
  · obtain ⟨_, p, hx, _⟩ := known
    have hvars := together.holds.vars e e x x rfl ⟨p, hx, hx⟩
    rw [hv] at hvars
    cases hvars with
    | some hsame => exact meets hsame
  · rw [together.later.left.spared e x fun inside => known inside.2] at hv
    exact sound.bound e x v hv

theorem held_after (sound : h.Sound)
    (together : sound.translation.Together sound.translation.SameValue h.store h.store k k r r) :
    ∀ v ∈ r.value?.toList ++ h.held, v.Meets (Closure.Legible h.names h.codes) := by
  refine List.forall_mem_append.mpr ⟨fun v hv => ?_, sound.held⟩
  cases together with
  | ok _ _ _ result =>
    obtain rfl : v = _ := by simpa [Outcome.value?] using hv
    exact meets result
  | error => simp [Outcome.value?] at hv

theorem safe {FailsAt : Name → State → Prop}
    (together : sound.translation.Together sound.translation.SameValue h.store h.store k k r r)
    (declares : ∀ p t, r = .error (.error (.duplicateDeclaration p)) t →
      ∃ x, FailsAt x t ∧ h.names.lookup x = p)
    (known : ∀ x t, FailsAt x t → ∃ p, h.names.get? x = some p) : r.Safe h.names FailsAt := by
  cases together with
  | ok => trivial
  | @error cause _ _ _ _ _ stops =>
    match cause, stops with
    | .error (.duplicateDeclaration _), _ =>
      obtain ⟨x, fails, rfl⟩ := declares _ _ rfl
      obtain ⟨p, hx⟩ := known x _ fails
      rw [Interner.lookup_of_get? hx]
      exact ⟨x, fails, hx⟩
    | .error (.typeMismatch _ _ _), _ | .error (.notCallable _), _
    | .error (.arityMismatch _ _), _ | .error .divisionByZero, _ | .error .moduloByZero, _
    | .error (.stackOverflow _), _ | .outOfFuel, _ => trivial

theorem eval_together (sound : h.Sound) {it : Interpreter} {id : NodeId}
    (names : it.names = h.names) (code : it.code ∈ h.codes) (covers : it.code.arena.Covers id)
    (n : Nat) (k : Sink) :
    sound.translation.Together sound.translation.SameValue h.store h.store k k
      (it.evalWith n id ⟨h.store, k⟩) (it.evalWith n id ⟨h.store, k⟩) :=
  sound.translation.evalWith_inStep n ⟨sameCaller names, rfl⟩ ⟨⟨rfl, code⟩, covers⟩
    (holds sound.bound) k k

theorem call_together (sound : h.Sound) {it : Interpreter} {f : Value} {args : List Value}
    (names : it.names = h.names) (hvs : ∀ v ∈ f :: args, v ∈ h.held) (n : Nat) (k : Sink) :
    sound.translation.Together sound.translation.SameValue h.store h.store k k
      (it.callWith n f args ⟨h.store, k⟩) (it.callWith n f args ⟨h.store, k⟩) := by
  rw [List.forall_mem_cons] at hvs
  exact sound.translation.callWith_lockstep n (sameCaller names) (holds sound.bound)
    (sameValue (sound.held f hvs.1))
    (List.forall₂_same.mpr fun v hv => sameValue (sound.held v (hvs.2 v hv))) k k

/-! ### Names that are declared -/

/-- Evaluation of covered expressions makes only legible closures. -/
def legibility (sound : h.Sound) : Invariant Unit :=
  .ofClosures (Closure.Legible h.names h.codes)
    (fun code id => code ∈ h.codes ∧ code.arena.Covers id)
    (fun inside hold hj => ⟨inside.1, (sound.codes _ inside.1).founded.covers hold.stored hj⟩)
    (fun {code _ span _ params} inside hold hparams _ _ => by
      have itself := (sound.codes code inside.1).named.parameters? span
      rw [hparams] at itself
      cases itself with
      | some same =>
        exact ⟨inside.1, (sound.codes code inside.1).founded.covers hold.stored
          (List.mem_singleton_self _), List.forall₂_same.mp same⟩)
    fun _ legible => ⟨legible.code, legible.body⟩

theorem known_of_sameText {names : Interner} {x y : Name} (h : names.SameText names x y) :
    ∃ p, names.get? x = some p :=
  h.imp fun _ hp => hp.1

theorem known_of_repeats {it : Interpreter} {c : Closure} {args : List Value} {s t : State}
    {x : Name} (legible : c.Legible h.names h.codes) (repeated : it.Repeats c args s x t) :
    ∃ p, h.names.get? x = some p := by
  obtain ⟨⟨j, first⟩, -⟩ := repeated
  exact known_of_sameText (legible.params x (List.mem_of_getElem? first.here))

/-- Every name that is declared a second time somewhere inside an evaluation has a string. -/
theorem known_of_failsAt (sound : h.Sound) {τ : Activation} {x : Name} {t : State}
    (start : sound.legibility.At () τ) (fails : τ.FailsAt x t) : ∃ p, h.names.get? x = some p := by
  obtain ⟨done, σ, visits, declares⟩ := fails
  obtain ⟨_, -, inside, -⟩ := start.visits visits
  cases declares with
  | @declaration n it id e _ s _ done v hold before taken =>
    have itself := (sound.codes _ inside.runs.1).named.node? id
    rw [hold.stored] at itself
    cases itself with
    | some same =>
      obtain ⟨y, hx⟩ := same.exists_of_name? rfl
      exact known_of_sameText hx
  | parameter hold hids all before repeated =>
    obtain ⟨_, -, -, known⟩ := inside.partway hold before
    exact known_of_repeats (known _ List.mem_cons_self _ rfl) repeated

theorem eval_safe (sound : h.Sound) {it : Interpreter} {id : NodeId} (names : it.names = h.names)
    (code : it.code ∈ h.codes) (covers : it.code.arena.Covers id) (n : Nat) (k : Sink) :
    Outcome.Safe h.names (Activation.FailsAt ⟨n, it, id, ⟨h.store, k⟩⟩)
      (it.evalWith n id ⟨h.store, k⟩) := by
  refine safe (sound.eval_together names code covers n k) (fun p t failed => ?_) fun x t fails => ?_
  · rw [← names]
    exact Activation.exists_failsAt (τ := ⟨n, it, id, ⟨h.store, k⟩⟩) failed
  · have start : sound.legibility.At () ⟨n, it, id, ⟨h.store, k⟩⟩ := ⟨sound.bound, code, covers⟩
    exact sound.known_of_failsAt start fails

theorem call_safe (sound : h.Sound) {it : Interpreter} {f : Value} {args : List Value}
    (names : it.names = h.names) (hvs : ∀ v ∈ f :: args, v ∈ h.held) (n : Nat) (k : Sink) :
    Outcome.Safe h.names (it.CallFailsAt n f args ⟨h.store, k⟩)
      (it.callWith n f args ⟨h.store, k⟩) := by
  refine safe (sound.call_together names hvs n k) (fun p t failed => ?_) fun x t fails => ?_
  · rw [← names]
    exact Interpreter.exists_callFailsAt failed
  · rw [List.forall_mem_cons] at hvs
    obtain ⟨c, rfl, repeated | ⟨scope, u, opened, fails⟩⟩ := fails
    · exact known_of_repeats (sound.held _ hvs.1 c rfl) repeated
    · obtain ⟨_, -, holds, hruns⟩ := Invariant.Keeps.openCall (I := sound.legibility) (w := ())
        sound.bound it (sound.held _ hvs.1) (fun v hv => sound.held v (hvs.2 v hv)) k
      rw [opened] at holds
      exact sound.known_of_failsAt ⟨holds, hruns scope u opened⟩ fails

/-! ### Steps of the host -/

theorem start : Host.Sound {} where
  names := Interner.wellFormed_initial
  drafts _ _ hmem := nomatch hmem
  codes _ hmem := nomatch hmem
  bound := .empty
  held _ hmem := nomatch hmem

/-- More strings do not hurt. -/
theorem withNames (sound : h.Sound) {names : Interner} (wf : names.WellFormed)
    (keeps : h.names.Keeps names) : Sound { h with names := names } where
  names := wf
  drafts a known hmem := ⟨(sound.drafts a known hmem).1.mono keeps, (sound.drafts a known hmem).2⟩
  codes code hmem := (sound.codes code hmem).mono keeps
  bound e x v hv c hc := (sound.bound e x v hv c hc).mono keeps fun _ h => h
  held v hv c hc := (sound.held v hv c hc).mono keeps fun _ h => h

theorem withDraft (sound : h.Sound) {a : Arena} {known : List NodeId} (legible : a.Legible h.names)
    (covers : ∀ i ∈ known, a.Covers i) : Sound { h with drafts := (a, known) :: h.drafts } where
  names := sound.names
  drafts a' known' hmem := by
    rcases List.mem_cons.mp hmem with hnew | hold
    · cases hnew
      exact ⟨legible, covers⟩
    · exact sound.drafts a' known' hold
  codes := sound.codes
  bound := sound.bound
  held := sound.held

theorem withStore (sound : h.Sound) (hs : s.Meets (Closure.Legible h.names h.codes)) :
    Sound { h with store := s } :=
  ⟨sound.names, sound.drafts, sound.codes, hs, sound.held⟩

theorem withHeld (sound : h.Sound) {held : List Value}
    (hheld : ∀ v ∈ held, v.Meets (Closure.Legible h.names h.codes)) :
    Sound { h with held := held } :=
  ⟨sound.names, sound.drafts, sound.codes, sound.bound, hheld⟩

theorem finish (sound : h.Sound) {a : Arena} (legible : a.Legible h.names) :
    Sound { h with
      codes := (h.store.freeze a).1 :: h.codes
      store := (h.store.freeze a).2 } where
  names := sound.names
  drafts := sound.drafts
  codes := List.forall_mem_cons.mpr ⟨legible, sound.codes⟩
  bound e x v hv c hc := (sound.bound e x v hv c hc).mono (.refl _) (List.subset_cons_self _ _)
  held v hv c hc := (sound.held v hv c hc).mono (.refl _) (List.subset_cons_self _ _)

theorem construct (sound : h.Sound) {a : Arena} {known : List NodeId} {root : Option NodeId}
    {b : Builder} (drafted : (a, known) ∈ h.drafts) (c : Construct)
    (earlier : ∀ i ∈ c.ids, i = .absent ∨ i ∈ known)
    (done : c.perform ⟨h.names, a⟩ = .ok root b) :
    Sound { h with names := b.names, drafts := (b.arena, root.toList ++ known) :: h.drafts } := by
  obtain ⟨legible, covers⟩ := sound.drafts a known drafted
  have hids : ∀ i ∈ c.ids ++ known, a.Covers i := by
    refine List.forall_mem_append.mpr ⟨fun i hi => ?_, covers⟩
    rcases earlier i hi with rfl | hknown
    · exact .inl rfl
    · exact covers i hknown
  have hnext := c.perform_keeps Arena.stable_founded (b := ⟨h.names, a⟩) ⟨legible.founded, hids⟩
    root b done
  have hroot : ∀ i ∈ root.toList ++ known, b.arena.Covers i := by
    cases root with
    | none => exact (List.forall_mem_cons.mp hnext.2).2
    | some id => exact hnext.2
  have itself : Builder.Alike ⟨h.names, a⟩ ⟨h.names, a⟩ :=
    ⟨sound.names, sound.names, legible.named⟩
  have agree := c.perform_uniform.agree itself
  rw [done] at agree
  cases agree with
  | ok alike keeps _ _ =>
    exact (sound.withNames alike.wf₁ keeps).withDraft ⟨hnext.1, alike.arena⟩ hroot

end Host.Sound

/-- Whatever a host program brings about is sound. -/
theorem Host.Arises.sound {h : Host} (arises : h.Arises) : h.Sound := by
  induction arises with
  | start => exact .start
  | intern _ done ih =>
    obtain ⟨wf, keeps, _⟩ := Interner.intern_keeps ih.names done
    exact ih.withNames wf keeps
  | draft _ ih => exact ih.withDraft ⟨.empty, .empty⟩ fun _ hmem => nomatch hmem
  | construct _ drafted c earlier done ih => exact ih.construct drafted c earlier done
  | finish _ drafted ih => exact ih.finish (ih.drafts _ _ drafted).1
  | global _ ih => exact ih.withStore ih.bound.global
  | child _ e ih => exact ih.withStore (ih.bound.child e)
  | declare _ hv e x ih => exact ih.withStore (ih.bound.declare (ih.held _ hv) e x)
  | update _ hv e x ih => exact ih.withStore (ih.bound.update (ih.held _ hv) e x)
  | resolve _ hv ih =>
    exact ih.withHeld (List.forall_mem_cons.mpr ⟨ih.bound.resolve hv, ih.held⟩)
  | data _ hv ih => exact ih.withHeld (List.forall_mem_cons.mpr ⟨.of_closure? hv, ih.held⟩)
  | forget _ hkept ih => exact ih.withHeld fun v hv => ih.held v (hkept hv)
  | eval _ names code covers n k ih =>
    have together := ih.eval_together names code covers n k
    exact (ih.withStore (ih.store_after together)).withHeld (ih.held_after together)
  | call _ names hvs n k ih =>
    have together := ih.call_together names hvs n k
    exact (ih.withStore (ih.store_after together)).withHeld (ih.held_after together)

/-- Programs made by builders are safe. Wherever a host program has come to, no evaluation that it
can start and no call that it can make looks up a number or a stretch outside the tables of the
arena in which it is meant. If one of them fails because of a declaration, then it has come to a
place where a name is declared a second time; the interner has a string for this name, and the
string is reported. This holds of every amount of fuel, so of every evaluation as far as it gets. -/
theorem built_programs_safe {h : Host} (arises : h.Arises) (it : Interpreter)
    (names : it.names = h.names) (n : Nat) (k : Sink) :
    (∀ id, it.code ∈ h.codes → it.code.arena.Covers id →
      Outcome.Safe h.names (Activation.FailsAt ⟨n, it, id, ⟨h.store, k⟩⟩)
        (it.evalWith n id ⟨h.store, k⟩)) ∧
    ∀ f args, (∀ v ∈ f :: args, v ∈ h.held) →
      Outcome.Safe h.names (it.CallFailsAt n f args ⟨h.store, k⟩)
        (it.callWith n f args ⟨h.store, k⟩) :=
  ⟨fun _ code covers => arises.sound.eval_safe names code covers n k,
    fun _ _ hvs => arises.sound.call_safe names hvs n k⟩

/-- A function with a parameter twice, evaluated in its own arena and called from an interpreter
over another one, which is empty. -/
theorem built_programs_safe_two_arenas :
    ∃ (h : Host) (it : Interpreter) (c : Closure) (t : State), h.Arises ∧ it.code ≠ c.code ∧
      it.callWith 1 (.closure c) [.null, .null] ⟨h.store, .buffer #[]⟩ =
        .error (.error (.duplicateDeclaration "")) t ∧
      ∃ x, it.CallFailsAt 1 (.closure c) [.null, .null] ⟨h.store, .buffer #[]⟩ x t ∧
        h.names.get? x = some "" := by
  let twice : Arena := ⟨#[.function ⟨0, 2⟩ .absent], #[], #[.empty, .empty]⟩
  let first : Interpreter := { names := .initial, code := ⟨1, twice⟩, env := 0 }
  let second : Interpreter := { names := .initial, code := ⟨0, {}⟩, env := 0 }
  have hbuild : (Construct.function ["", ""] .absent).perform ⟨.initial, {}⟩ =
      .ok (some ⟨0⟩) ⟨.initial, twice⟩ := by
    simp only [Construct.perform, Builder.function, List.mapM_cons, List.mapM_nil, Bind.bind,
      EStateM.bind, Functor.map, EStateM.map, Builder.intern_empty]
    rfl
  let c : Closure := ⟨0, [.empty, .empty], .absent, 0, ⟨1, twice⟩⟩
  let built : Host :=
    { drafts := [(twice, [⟨0⟩]), ({}, [])], codes := [⟨1, twice⟩, ⟨0, {}⟩], store := ⟨#[], 0, 2⟩ }
  have drafted : Host.Arises { drafts := [({}, [])] } := .draft .start
  have arises : built.Arises :=
    ((drafted.finish List.mem_cons_self).construct List.mem_cons_self
      (.function ["", ""] .absent) (by simp [Construct.ids]) hbuild).finish List.mem_cons_self
  have names : first.names = built.names := rfl
  have covers : first.code.arena.Covers ⟨0⟩ := .inr (by decide)
  have evaluated : Host.Arises { built with store := ⟨#[], 1, 2⟩, held := [.closure c] } :=
    arises.eval names List.mem_cons_self covers 1 (.buffer #[])
  have ready : Host.Arises { built with store := ⟨#[], 1, 2⟩, held := [.null, .closure c] } :=
    evaluated.data rfl
  refine ⟨_, second, c, _, ready, by decide, rfl, ?_⟩
  exact (built_programs_safe ready second rfl 1 (.buffer #[])).2 (.closure c) [.null, .null]
    (by decide)

end Treewalk
