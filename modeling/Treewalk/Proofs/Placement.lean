import Mathlib.Data.List.Permutation
import Treewalk.Proofs.Adequacy
import Treewalk.Proofs.Enclosure
import Treewalk.Proofs.Invariants

/-! The scopes of a run and the text of the program. Every scope stands for a site of the program:
the outermost one for the top level, every other one for the inside of a block or of a function
literal. Closures are stored, returned and called from anywhere, but each holds on to a scope that
stands for the site of its literal, so the links between scopes follow the text. -/

namespace Treewalk

/-- The names that a scope for a site may bind: those declared directly there, the parameters of
the literal whose body lies there, and at the top level the targets of all assignments. -/
inductive Arena.MayBind (a : Arena) (root : NodeId) : Site → Name → Prop where
  | declared {site i x e} (h : a.Encloses root site i) (hold : a.Holds i (.declare x e)) :
      MayBind a root site x
  | parameter {site i span body params x} (h : a.Encloses root site i)
      (hold : a.Holds i (.function span body)) (hparams : a.parameters? span = some params)
      (hx : x ∈ params) : MayBind a root (i :: site) x
  | assigned {site i x e} (h : a.Encloses root site i) (hold : a.Holds i (.assign x e)) :
      MayBind a root [] x

/-- The scope with number `e` stands for a site, where `sites` lists the sites of all scopes. -/
def StandsFor (sites : List Site) (e : ScopeId) (site : Site) : Prop := sites[e]? = some site

/-- The closure comes from a function literal at the given site and captured a scope that stands for
this site. -/
structure Closure.Placed (code : Code) (root : NodeId) (sites : List Site) (c : Closure)
    (site : Site) : Prop where
  code_eq : c.code = code
  captured : StandsFor sites c.env site
  literal : ∃ i span, code.arena.Encloses root site i ∧
    code.arena.Holds i (.function span c.body) ∧ code.arena.parameters? span = some c.params

/-- The scopes of the store stand for sites of the program: the first one for the top level, and
every other one for the inside of one block or function literal, while the scope around it stands
for the site of this block or literal. Scopes bind only names that belong at their sites, and
closures captured scopes for the sites of their literals. -/
structure Store.Mirrors (s : Store) (code : Code) (root : NodeId) (sites : List Site) : Prop where
  size : sites.length = s.scopes.size
  top : StandsFor sites 0 [] ∧ s.parent 0 = none
  inner : ∀ e site, StandsFor sites e site → e ≠ 0 →
    ∃ i around node p, site = i :: around ∧ code.arena.Encloses root around i ∧
      code.arena.Holds i node ∧ node.body?.isSome ∧
      p < e ∧ s.parent e = some p ∧ StandsFor sites p around
  names : ∀ e site x v, StandsFor sites e site → s.local? e x = some v →
    code.arena.MayBind root site x
  closures : ∀ e x c, s.local? e x = some (.closure c) → ∃ site, c.Placed code root sites site

section

variable {code : Code} {root : NodeId} {sites sites' : List Site} {s : Store} {e : ScopeId}
  {site : Site}

namespace StandsFor

theorem lt (h : StandsFor sites e site) : e < sites.length :=
  (List.getElem?_eq_some_iff.mp h).1

theorem append (h : StandsFor sites e site) (more : List Site) :
    StandsFor (sites ++ more) e site :=
  (List.getElem?_append_left h.lt).trans h

theorem unique {site' : Site} (h : StandsFor sites e site) (h' : StandsFor sites e site') :
    site = site' :=
  Option.some.inj (h.symm.trans h')

theorem concat {n : Nat} (h : sites.length = n) (new : Site) :
    StandsFor (sites ++ [new]) n new := by
  subst h
  exact List.getElem?_concat_length

/-- A scope among the old ones and a new one is an old one or the new one. -/
theorem of_concat {new : Site} (h : StandsFor (sites ++ [new]) e site) :
    StandsFor sites e site ∨ (e = sites.length ∧ site = new) := by
  simp only [StandsFor, List.getElem?_append] at h ⊢
  split at h
  next => exact .inl h
  next hlt =>
    rw [List.getElem?_singleton] at h
    split at h
    next heq =>
      have hle := Nat.le_of_sub_eq_zero heq
      exact .inr ⟨Nat.le_antisymm hle (Nat.le_of_not_lt hlt), (Option.some.inj h).symm⟩
    next => cases h

end StandsFor

theorem Closure.Placed.mono {c : Closure} (h : c.Placed code root sites site)
    (more : ∀ e site, StandsFor sites e site → StandsFor sites' e site) :
    c.Placed code root sites' site :=
  ⟨h.code_eq, more c.env site h.captured, h.literal⟩

namespace Store.Mirrors

theorem start (k : Sink) : (State.start k).store.Mirrors code root [[]] := by
  have hempty : ∀ e x, (State.start k).store.local? e x = none := by
    intro e x
    rw [local?, State.start, scope_global, scope_empty]
    rfl
  constructor
  case size => rfl
  case top => exact ⟨rfl, rfl⟩
  case inner =>
    intro e site h hne
    have := h.lt
    exact absurd (Nat.lt_one_iff.mp this) hne
  case names =>
    intro e site x v _ hv
    rw [hempty] at hv
    cases hv
  case closures =>
    intro e x c hc
    rw [hempty] at hc
    cases hc

theorem lt_size (h : s.Mirrors code root sites) (he : StandsFor sites e site) :
    e < s.scopes.size := h.size ▸ he.lt

/-- The scopes around a scope lead to the outermost one. -/
theorem root_eq (h : s.Mirrors code root sites) (he : StandsFor sites e site) :
    s.root e = 0 := by
  induction e using Nat.strongRecOn generalizing site with
  | _ e ih =>
    rw [Store.root]
    by_cases hzero : e = 0
    · subst hzero
      simp [outer?, h.top.2]
    · obtain ⟨i, around, node, p, _, _, _, _, hlt, hparent, hp⟩ := h.inner e site he hzero
      rw [outer?_eq_some hparent (h := hlt)]
      exact ih p hlt hp

/-- A scope has as many scopes around it as its site has blocks and literals around it. -/
theorem depth_eq (h : s.Mirrors code root sites) (he : StandsFor sites e site) :
    s.depth e = 1 + site.length := by
  rw [depth_eq_length_chain]
  induction e using Nat.strongRecOn generalizing site with
  | _ e ih =>
    rw [Store.chain]
    by_cases hzero : e = 0
    · subst hzero
      obtain rfl := he.unique h.top.1
      simp [outer?, h.top.2]
    · obtain ⟨i, around, node, p, rfl, _, _, _, hlt, hparent, hp⟩ := h.inner e site he hzero
      rw [outer?_eq_some hparent (h := hlt)]
      simp only [List.length_cons]
      rw [ih p hlt hp]
      omega

theorem bind (h : s.Mirrors code root sites) (he : StandsFor sites e site) {x : Name} {v : Value}
    (hx : code.arena.MayBind root site x)
    (hv : ∀ c, v = .closure c → ∃ site, c.Placed code root sites site) :
    (s.bind e x v).Mirrors code root sites := by
  constructor
  case size => rw [size_bind, h.size]
  case top => rw [parent_bind]; exact h.top
  case inner =>
    intro f site' hf hne
    rw [parent_bind]
    exact h.inner f site' hf hne
  case names =>
    intro f site' y w hf hw
    rw [local?_bind] at hw
    split at hw
    next heq =>
      obtain ⟨rfl, _, rfl⟩ := heq
      obtain rfl := hf.unique he
      exact hx
    next => exact h.names f site' y w hf hw
  case closures =>
    intro f y c hc
    rw [local?_bind] at hc
    split at hc
    next => exact hv c (Option.some.inj hc)
    next => exact h.closures f y c hc

/-- An assignment binds a name again where it is bound, or else at the top level. -/
theorem update (h : s.Mirrors code root sites) (he : StandsFor sites e site) {x : Name}
    {v : Value} (hx : code.arena.MayBind root [] x)
    (hv : ∀ c, v = .closure c → ∃ site, c.Placed code root sites site) :
    (s.update e x v).2.Mirrors code root sites := by
  unfold Store.update
  split
  next b hb =>
    -- what a scope binds already belongs at its site
    have hbinds : (s.local? b x).isSome := bindsLocally_of_binder? hb
    obtain ⟨w, hw⟩ := Option.isSome_iff_exists.mp hbinds
    have hlt : b < sites.length := by
      rw [h.size]
      by_contra hge
      rw [local?_of_size_le (Nat.le_of_not_lt hge)] at hw
      cases hw
    have hsite : StandsFor sites b sites[b] := List.getElem?_eq_getElem hlt
    exact h.bind hsite (h.names b _ x w hsite hw) hv
  next =>
    rw [h.root_eq he]
    exact h.bind h.top.1 hx hv

theorem newClosure (h : s.Mirrors code root sites) (params : List Name) (body : NodeId) :
    (s.newClosure params body e code).2.Mirrors code root sites :=
  ⟨h.size, h.top, h.inner, h.names, h.closures⟩

/-- A scope opened for a block or a literal inside a scope for the site around it. -/
theorem child (h : s.Mirrors code root sites) (he : StandsFor sites e site) {i : NodeId}
    {node : Node} (hi : code.arena.Encloses root site i) (hold : code.arena.Holds i node)
    (hbody : node.body?.isSome) :
    (s.child e).2.Mirrors code root (sites ++ [i :: site]) := by
  have hlt : ∀ {f p}, StandsFor sites f p → f ≠ s.scopes.size :=
    fun hf => Nat.ne_of_lt (h.lt_size hf)
  constructor
  case size => simp [Store.child, h.size]
  case top =>
    rw [parent_child, if_neg (hlt h.top.1)]
    exact ⟨h.top.1.append _, h.top.2⟩
  case inner =>
    intro f site' hf hne
    rcases hf.of_concat with hold' | ⟨rfl, rfl⟩
    · rw [parent_child, if_neg (hlt hold')]
      obtain ⟨j, around, node', p, hsite, hj, hnode, hsome, hless, hparent, hp⟩ :=
        h.inner f site' hold' hne
      exact ⟨j, around, node', p, hsite, hj, hnode, hsome, hless, hparent, hp.append _⟩
    · rw [parent_child, if_pos h.size]
      exact ⟨i, site, node, e, rfl, hi, hold, hbody, he.lt, rfl, he.append _⟩
  case names =>
    intro f site' x v hf hv
    rw [local?_alloc_child] at hv
    rcases hf.of_concat with hold' | ⟨rfl, rfl⟩
    · exact h.names f site' x v hold' hv
    · rw [h.size, local?_of_size_le (Nat.le_refl _)] at hv
      cases hv
  case closures =>
    intro f x c hc
    rw [local?_alloc_child] at hc
    obtain ⟨site', hplaced⟩ := h.closures f x c hc
    exact ⟨site', hplaced.mono fun _ _ hat => hat.append _⟩

end Store.Mirrors

/-! ### Runs -/

/-- The scopes of a run mirror the program, with one more site for each scope that is opened. -/
def placement (code : Code) (root : NodeId) : Invariant (List Site) where
  Le sites sites' := ∀ e site, StandsFor sites e site → StandsFor sites' e site
  Holds sites s := s.Mirrors code root sites
  Knows sites v := ∀ c, v = .closure c → ∃ site, c.Placed code root sites site
  Runs sites it id := it.code = code ∧
    ∃ site, StandsFor sites it.env site ∧ code.arena.Encloses root site id
  refl _ _ _ h := h
  trans h h' e site he := h' e site (h e site he)
  knows_mono hle h c hc := by
    obtain ⟨site, hplaced⟩ := h c hc
    exact ⟨site, hplaced.mono hle⟩
  runs_mono hle h := by
    obtain ⟨hcode, site, hat, hid⟩ := h
    exact ⟨hcode, site, hle _ _ hat, hid⟩
  data := by
    rintro _ _ hv c rfl
    cases hv
  bound := by
    rintro sites s e x v h hv c rfl
    exact h.closures e x c hv
  part := by
    rintro sites it id node j ⟨rfl, site, hat, hid⟩ hold hj
    exact ⟨rfl, site, hat, hid.part hold hj⟩
  block := by
    rintro sites s it id e h ⟨rfl, site, hat, hid⟩ hold
    refine ⟨sites ++ [id :: site], fun _ _ he => he.append _, h.child hat hid hold rfl, rfl,
      id :: site, .concat h.size _, ?_⟩
    exact hid.child hold (List.mem_singleton_self e)
  declare := by
    rintro sites s it id x e v h ⟨rfl, site, hat, hid⟩ hold hv
    exact h.bind hat (.declared hid hold) hv
  assign := by
    rintro sites s it id x e v h ⟨rfl, site, hat, hid⟩ hold hv
    exact h.update hat (.assigned hid hold) hv
  function := by
    rintro sites s it id span body params h ⟨rfl, site, hat, hid⟩ hold hparams
    refine ⟨sites, fun _ _ he => he, h.newClosure params body, ?_⟩
    rintro c ⟨⟩
    exact ⟨site, rfl, hat, id, span, hid, hold, hparams⟩
  enter := by
    rintro sites s c it h hc
    obtain ⟨site, rfl, hat, i, span, hi, hold, hparams⟩ := hc c rfl
    refine ⟨sites ++ [i :: site], fun _ _ he => he.append _, h.child hat hi hold rfl, ?_, ?_⟩
    · exact ⟨rfl, i :: site, .concat h.size _, hi.child hold (List.mem_singleton_self c.body)⟩
    · intro sites' t x v hle h' hx hv
      exact h'.bind (hle _ _ (.concat h.size _)) (.parameter hi hold hparams hx) hv

end

/-- The scopes that a run leaves mirror the text of the program, whatever the limit and the fuel and
however the run ends. Every node of the program lies at one site; the scopes stand for sites; and
every closure that is bound in a scope or returned captured a scope for the site of its literal, so
the depth of this scope is one more than the number of blocks and literals around the literal. -/
theorem scopes_mirror_text {b b' : Builder} {trees : List Term} {root : Option NodeId}
    (built : Tree.buildProgram Empty.elim trees b = .ok root b') (number : Nat)
    (limit : Option Nat) (k : Sink) (n : Nat) :
    let code : Code := ⟨number, b'.arena⟩
    let r := (Interpreter.start b'.names code limit).evalWith n (.ofOption root) (.start k)
    let s := (Outcome.state r).store
    (∀ p q j, j ≠ .absent → code.arena.Encloses (.ofOption root) p j →
      code.arena.Encloses (.ofOption root) q j → p = q) ∧
    ∃ sites, s.Mirrors code (.ofOption root) sites ∧
      ∀ c, (∃ e x, s.local? e x = some (.closure c)) ∨ (∃ t, r = .ok (.closure c) t) →
        ∃ site, c.Placed code (.ofOption root) sites site ∧
          s.depth c.env = 1 + site.length := by
  intro code r s
  have forest := Tree.forest_of_buildProgram built
  refine ⟨fun p q j present hp hq => hp.unique hq forest present, ?_⟩
  have hruns : (placement code (.ofOption root)).Runs [[]] (.start b'.names code limit)
      (.ofOption root) := ⟨rfl, [], rfl, .root⟩
  obtain ⟨sites, _, hmirrors, hresult⟩ :=
    (placement code (.ofOption root)).evaluates_evalWith n (.start k) hruns k
  refine ⟨sites, hmirrors, fun c hc => ?_⟩
  have hplaced : ∃ site, c.Placed code (.ofOption root) sites site := by
    rcases hc with ⟨e, x, hc⟩ | ⟨t, ht⟩
    · exact hmirrors.closures e x c hc
    · exact hresult _ t ht c rfl
  obtain ⟨site, hsite⟩ := hplaced
  exact ⟨site, hsite, hmirrors.depth_eq hsite.captured⟩

/-- A call of a function whose body is a block, which gives a function: around the inner literal lie
the block and the outer literal, and it captured the third scope. -/
theorem scopes_mirror_text_nested :
    ∃ b t c, Tree.buildProgram Empty.elim
        [.call (.function [] (.scopedBlock [.function [] .absent])) []] {} = .ok (some ⟨3⟩) b ∧
      (Interpreter.start b.names ⟨0, b.arena⟩ none).evalWith 9 ⟨3⟩ (.start (.buffer #[])) =
        .ok (.closure c) t ∧
      ∃ sites site, t.store.Mirrors ⟨0, b.arena⟩ ⟨3⟩ sites ∧
        c.Placed ⟨0, b.arena⟩ ⟨3⟩ sites site ∧ site.length = 2 := by
  let arena : Arena :=
    { nodes := #[.function .empty .absent, .block ⟨0⟩, .function .empty ⟨1⟩, .call ⟨2⟩ .empty] }
  let store : Store :=
    { scopes := #[{}, { parent := some 0 }, { parent := some 1 }], nextClosure := 2 }
  have built : Tree.buildProgram Empty.elim
      [.call (.function [] (.scopedBlock [.function [] .absent])) []] {} =
        .ok (some ⟨3⟩) { arena := arena } := rfl
  have run : (Interpreter.start .initial ⟨0, arena⟩ none).evalWith 9 ⟨3⟩ (.start (.buffer #[])) =
      .ok (.closure ⟨1, [], .absent, 2, ⟨0, arena⟩⟩) { store := store } := rfl
  obtain ⟨_, sites, hmirrors, hclosures⟩ := scopes_mirror_text built 0 none (.buffer #[]) 9
  obtain ⟨site, hplaced, hdepth⟩ := hclosures _ (.inr ⟨_, run⟩)
  have hthree : 1 + site.length = 3 := Eq.trans hdepth.symm (by cbv)
  exact ⟨_, _, _, built, run, sites, site, hmirrors, hplaced, by omega⟩

end Treewalk
