import Treewalk.Proofs.Translation
import Treewalk.Tree

/-! The same steps of construction over two interners with different histories. Unless an interner
has no room left, both give the same numbers or refuse for the same reason, and the arenas differ at
most in the names that they mention, which have the same text. A builder beside itself shows that
its interner knows all names that its arena mentions. -/

namespace Treewalk

namespace Interner

/-- The names stand for the same string in the two interners. -/
def SameText (t₁ t₂ : Interner) (x₁ x₂ : Name) : Prop :=
  ∃ p, t₁.get? x₁ = some p ∧ t₂.get? x₂ = some p

variable {t₁ t₂ t₁' t₂' : Interner} {x₁ x₂ y₁ y₂ : Name}

namespace SameText

theorem mono (h : t₁.SameText t₂ x₁ x₂) (keeps₁ : t₁.Keeps t₁') (keeps₂ : t₂.Keeps t₂') :
    t₁'.SameText t₂' x₁ x₂ := by
  obtain ⟨p, h₁, h₂⟩ := h
  exact ⟨p, keeps₁ x₁ p h₁, keeps₂ x₂ p h₂⟩

theorem lookup_eq (h : t₁.SameText t₂ x₁ x₂) : t₁.lookup x₁ = t₂.lookup x₂ := by
  obtain ⟨p, h₁, h₂⟩ := h
  rw [lookup_of_get? h₁, lookup_of_get? h₂]

theorem eq_iff (wf₁ : t₁.WellFormed) (wf₂ : t₂.WellFormed) (hx : t₁.SameText t₂ x₁ x₂)
    (hy : t₁.SameText t₂ y₁ y₂) : x₁ = y₁ ↔ x₂ = y₂ := by
  obtain ⟨p, hx₁, hx₂⟩ := hx
  obtain ⟨q, hy₁, hy₂⟩ := hy
  constructor
  · rintro rfl
    obtain rfl : p = q := Option.some.inj (hx₁.symm.trans hy₁)
    exact wf₂.get?_inj hx₂ hy₂
  · rintro rfl
    obtain rfl : p = q := Option.some.inj (hx₂.symm.trans hy₂)
    exact wf₁.get?_inj hx₁ hy₁

end SameText

end Interner

/-! ### Arenas -/

theorem Span.slice?_alike {α : Type} {R : α → α → Prop} {table₁ table₂ : Array α}
    (h : List.Forall₂ R table₁.toList table₂.toList) (s : Span) :
    Option.Rel (List.Forall₂ R) (s.slice? table₁) (s.slice? table₂) := by
  have hsize : table₁.size = table₂.size := by simpa using h.length_eq
  unfold slice?
  rw [hsize]
  split
  · simp only [Array.toList_extract, List.extract_eq_take_drop]
    exact .some (List.forall₂_take _ (List.forall₂_drop _ h))
  · exact .none

namespace Arena

/-- The arenas differ at most in the names that they mention. -/
structure Alike (name : Name → Name → Prop) (a₁ a₂ : Arena) : Prop where
  nodes : List.Forall₂ (Node.Alike name) a₁.nodes.toList a₂.nodes.toList
  arguments : a₁.arguments = a₂.arguments
  parameters : List.Forall₂ name a₁.parameters.toList a₂.parameters.toList

namespace Alike

variable {name name' : Name → Name → Prop} {a₁ a₂ : Arena}

theorem empty : Alike name {} {} := ⟨.nil, rfl, .nil⟩

theorem size_eq (h : a₁.Alike name a₂) : a₁.size = a₂.size := by
  simpa [size] using h.nodes.length_eq

theorem mono (h : a₁.Alike name a₂) (hname : ∀ x₁ x₂, name x₁ x₂ → name' x₁ x₂) :
    a₁.Alike name' a₂ where
  nodes := h.nodes.imp fun node₁ node₂ alike => by
    cases alike with
    | ident hx => exact .ident (hname _ _ hx)
    | declare hx => exact .declare (hname _ _ hx)
    | assign hx => exact .assign (hname _ _ hx)
    | nameless hx => exact .nameless hx
  arguments := h.arguments
  parameters := h.parameters.imp hname

theorem node? (h : a₁.Alike name a₂) (id : NodeId) :
    Option.Rel (Node.Alike name) (a₁.node? id) (a₂.node? id) := by
  have hnodes := h.nodes
  rw [Arena.node?, Arena.node?, ← Array.getElem?_toList, ← Array.getElem?_toList]
  generalize a₁.nodes.toList = ns₁, a₂.nodes.toList = ns₂, id.index = i at hnodes
  induction hnodes generalizing i with
  | nil => exact .none
  | cons hnode _ ih =>
    cases i with
    | zero => exact .some hnode
    | succ i => exact ih i

theorem parameters? (h : a₁.Alike name a₂) (span : Span) :
    Option.Rel (List.Forall₂ name) (a₁.parameters? span) (a₂.parameters? span) :=
  Span.slice?_alike h.parameters span

theorem push (h : a₁.Alike name a₂) {node₁ node₂ : Node} (hnode : node₁.Alike name node₂) :
    Alike name { a₁ with nodes := a₁.nodes.push node₁ } { a₂ with nodes := a₂.nodes.push node₂ }
    where
  nodes := by
    rw [Array.toList_push, Array.toList_push]
    exact List.rel_append h.nodes (.cons hnode .nil)
  arguments := h.arguments
  parameters := h.parameters

end Alike

end Arena

/-! ### Steps of construction -/

/-- The builders differ at most in the histories of their interners. -/
structure Builder.Alike (b₁ b₂ : Builder) : Prop where
  wf₁ : b₁.names.WellFormed
  wf₂ : b₂.names.WellFormed
  arena : b₁.arena.Alike (b₁.names.SameText b₂.names) b₂.arena

/-- Two steps from the builders `b₁` and `b₂` gave related results and left builders that are alike,
or they were refused for the same reason, or an interner has no room left. -/
inductive Build.Agree {α β : Type} (Q : Interner → Interner → α → β → Prop) (b₁ b₂ : Builder) :
    EStateM.Result Refusal Builder α → EStateM.Result Refusal Builder β → Prop where
  | ok {a : α} {b : β} {b₁' b₂' : Builder} (alike : b₁'.Alike b₂')
      (keeps₁ : b₁.names.Keeps b₁'.names) (keeps₂ : b₂.names.Keeps b₂'.names)
      (result : Q b₁'.names b₂'.names a b) : Agree Q b₁ b₂ (.ok a b₁') (.ok b b₂')
  | refused {r : Refusal} {b₁' b₂' : Builder} : Agree Q b₁ b₂ (.error r b₁') (.error r b₂')
  | full₁ {n : Nat} {b₁' : Builder} {r₂ : EStateM.Result Refusal Builder β} :
      Agree Q b₁ b₂ (.error (.strings n) b₁') r₂
  | full₂ {n : Nat} {b₂' : Builder} {r₁ : EStateM.Result Refusal Builder α} :
      Agree Q b₁ b₂ r₁ (.error (.strings n) b₂')

/-- From builders that are alike the step gives the same result. -/
structure Build.Uniform {α : Type} (m : Build α) : Prop where
  agree : ∀ {b₁ b₂}, b₁.Alike b₂ → Agree (fun _ _ => Eq) b₁ b₂ (m b₁) (m b₂)

namespace Build

variable {α β γ δ : Type} {Q : Interner → Interner → α → β → Prop}
  {R : Interner → Interner → γ → δ → Prop} {m₁ : Build α} {m₂ : Build β} {b₁ b₂ : Builder}

namespace Agree

theorem bind {f₁ : α → Build γ} {f₂ : β → Build δ} (h : Agree Q b₁ b₂ (m₁ b₁) (m₂ b₂))
    (hf : ∀ a b b₁' b₂', b₁'.Alike b₂' → Q b₁'.names b₂'.names a b →
      Agree R b₁' b₂' (f₁ a b₁') (f₂ b b₂')) :
    Agree R b₁ b₂ ((m₁ >>= f₁) b₁) ((m₂ >>= f₂) b₂) := by
  simp only [Bind.bind, EStateM.bind]
  generalize m₁ b₁ = r₁, m₂ b₂ = r₂ at h
  cases h with
  | @ok a b b₁' b₂' alike keeps₁ keeps₂ result =>
    have hrest := hf a b b₁' b₂' alike result
    simp only
    generalize f₁ a b₁' = r₁, f₂ b b₂' = r₂ at hrest
    cases hrest with
    | ok alike' keeps₁' keeps₂' result' =>
      exact .ok alike' (keeps₁.trans keeps₁') (keeps₂.trans keeps₂') result'
    | refused => exact .refused
    | full₁ => exact .full₁
    | full₂ => exact .full₂
  | refused => exact .refused
  | full₁ => exact .full₁
  | full₂ => exact .full₂

theorem pure {a : α} {b : β} (alike : b₁.Alike b₂) (result : Q b₁.names b₂.names a b) :
    Agree Q b₁ b₂ ((Pure.pure a : Build α) b₁) ((Pure.pure b : Build β) b₂) :=
  .ok alike (.refl _) (.refl _) result

theorem mono {Q' : Interner → Interner → α → β → Prop} {r₁ : EStateM.Result Refusal Builder α}
    {r₂ : EStateM.Result Refusal Builder β} (h : Agree Q b₁ b₂ r₁ r₂)
    (hQ : ∀ t₁ t₂ a b, b₁.names.Keeps t₁ → b₂.names.Keeps t₂ → Q t₁ t₂ a b → Q' t₁ t₂ a b) :
    Agree Q' b₁ b₂ r₁ r₂ := by
  cases h with
  | ok alike keeps₁ keeps₂ result => exact .ok alike keeps₁ keeps₂ (hQ _ _ _ _ keeps₁ keeps₂ result)
  | refused => exact .refused
  | full₁ => exact .full₁
  | full₂ => exact .full₂

end Agree

namespace Uniform

theorem pure (a : α) : Uniform (pure a) := ⟨fun alike => .pure alike rfl⟩

theorem bind {m : Build α} {f : α → Build γ} (h : m.Uniform) (hf : ∀ a, (f a).Uniform) :
    Uniform (m >>= f) := by
  refine ⟨fun alike => (h.agree alike).bind ?_⟩
  rintro a _ b₁' b₂' alike' rfl
  exact (hf a).agree alike'

theorem map {m : Build α} (h : m.Uniform) (f : α → γ) : Uniform (f <$> m) := by
  rw [map_eq_pure_bind]
  exact h.bind fun a => pure (f a)

end Uniform

end Build

namespace Builder

variable {b₁ b₂ : Builder}

theorem intern_agree (alike : b₁.Alike b₂) (s : String) :
    Build.Agree Interner.SameText b₁ b₂ (intern s b₁) (intern s b₂) := by
  simp only [intern, onNames]
  cases h₁ : Interner.intern s b₁.names with
  | error r names₁ =>
    obtain ⟨rfl, _⟩ := Interner.intern_full h₁
    exact .full₁
  | ok x₁ names₁ =>
    cases h₂ : Interner.intern s b₂.names with
    | error r names₂ =>
      obtain ⟨rfl, _⟩ := Interner.intern_full h₂
      exact .full₂
    | ok x₂ names₂ =>
      obtain ⟨wf₁, keeps₁, hx₁⟩ := Interner.intern_keeps alike.wf₁ h₁
      obtain ⟨wf₂, keeps₂, hx₂⟩ := Interner.intern_keeps alike.wf₂ h₂
      have arena := alike.arena.mono fun _ _ hx => hx.mono keeps₁ keeps₂
      exact .ok ⟨wf₁, wf₂, arena⟩ keeps₁ keeps₂ ⟨s, hx₁, hx₂⟩

theorem internAll_agree (alike : b₁.Alike b₂) (params : List String) :
    Build.Agree (fun t₁ t₂ => List.Forall₂ (t₁.SameText t₂)) b₁ b₂ (params.mapM intern b₁)
      (params.mapM intern b₂) := by
  induction params generalizing b₁ b₂ with
  | nil => exact .ok alike (.refl _) (.refl _) .nil
  | cons p params ih =>
    rw [List.mapM_cons]
    refine (intern_agree alike p).bind fun x₁ x₂ b₁' b₂' alike' hx => ?_
    have hrest : Build.Agree (fun t₁ t₂ xs₁ xs₂ => t₁.SameText t₂ x₁ x₂ ∧
        List.Forall₂ (t₁.SameText t₂) xs₁ xs₂) b₁' b₂' _ _ :=
      (ih alike').mono fun t₁ t₂ xs₁ xs₂ keeps₁ keeps₂ hxs => ⟨hx.mono keeps₁ keeps₂, hxs⟩
    exact hrest.bind fun xs₁ xs₂ b₁'' b₂'' alike'' hxs => .pure alike'' (.cons hxs.1 hxs.2)

theorem alloc_agree (alike : b₁.Alike b₂) {node₁ node₂ : Node}
    (hnode : node₁.Alike (b₁.names.SameText b₂.names) node₂) :
    Build.Agree (fun _ _ => Eq) b₁ b₂ (alloc node₁ b₁) (alloc node₂ b₂) := by
  have hsize : b₁.arena.nodes.size = b₂.arena.nodes.size := alike.arena.size_eq
  simp only [alloc, onArena, Arena.allocNode, hsize]
  by_cases room : b₂.arena.nodes.size ≤ maxIndex
  · simp only [room, if_true]
    exact .ok ⟨alike.wf₁, alike.wf₂, alike.arena.push hnode⟩ (.refl _) (.refl _) rfl
  · simp only [room, if_false]
    exact .refused

theorem allocArguments_uniform (ids : List NodeId) :
    (onArena (Arena.allocArguments ids)).Uniform := by
  refine ⟨fun {b₁ b₂} alike => ?_⟩
  simp only [onArena, Arena.allocArguments, Span.append, alike.arena.arguments]
  by_cases room : b₂.arena.arguments.size ≤ maxIndex
  · by_cases short : ids.length ≤ maxListLength
    · simp only [room, short, if_true]
      exact .ok ⟨alike.wf₁, alike.wf₂, alike.arena.nodes, rfl, alike.arena.parameters⟩ (.refl _)
        (.refl _) rfl
    · simp only [room, short, if_true, if_false]
      exact .refused
  · simp only [room, if_false]
    exact .refused

theorem allocParameters_agree (alike : b₁.Alike b₂) {xs₁ xs₂ : List Name}
    (hxs : List.Forall₂ (b₁.names.SameText b₂.names) xs₁ xs₂) :
    Build.Agree (fun _ _ => Eq) b₁ b₂ (onArena (Arena.allocParameters xs₁) b₁)
      (onArena (Arena.allocParameters xs₂) b₂) := by
  have hsize : b₁.arena.parameters.size = b₂.arena.parameters.size := by
    simpa using alike.arena.parameters.length_eq
  simp only [onArena, Arena.allocParameters, Span.append, hsize, hxs.length_eq]
  by_cases room : b₂.arena.parameters.size ≤ maxIndex
  · by_cases short : xs₂.length ≤ maxListLength
    · simp only [room, short, if_true]
      refine .ok ⟨alike.wf₁, alike.wf₂, alike.arena.nodes, alike.arena.arguments, ?_⟩ (.refl _)
        (.refl _) rfl
      simp only [Array.toList_appendList]
      exact List.rel_append alike.arena.parameters hxs
    · simp only [room, short, if_true, if_false]
      exact .refused
  · simp only [room, if_false]
    exact .refused

theorem alloc_uniform {node : Node} (h : node.name? = none) : (alloc node).Uniform :=
  ⟨fun alike => alloc_agree alike (.nameless h)⟩

theorem seqBefore_uniform (second : NodeId) (earlier : List NodeId) :
    (seqBefore second earlier).Uniform := by
  induction earlier generalizing second with
  | nil => exact .pure second
  | cons first earlier ih => exact .bind (alloc_uniform rfl) ih

theorem seq_uniform (statements : List (Option NodeId)) : (seq statements).Uniform := by
  unfold seq
  split
  · exact .pure none
  · exact (seqBefore_uniform _ _).map some

end Builder

/-- Every step that a builder offers is uniform. -/
theorem Construct.perform_uniform (c : Construct) : c.perform.Uniform := by
  cases c with
  | int _ | bool _ | null | print _ | binary _ _ _ | ifThen _ _ | ifElse _ _ _ | whileLoop _ _
  | seqPair _ _ => exact .map (Builder.alloc_uniform rfl) some
  | binarySymbol token l r =>
    simp only [perform, Builder.binarySymbol]
    split
    · exact .map (Builder.alloc_uniform rfl) some
    · exact .pure none
  | seq _ | program _ | block _ => exact Builder.seq_uniform _
  | scopedBlock statements =>
    refine (Builder.seq_uniform statements).bind fun root => ?_
    cases root with
    | none => exact .pure none
    | some body => exact .map (Builder.alloc_uniform rfl) some
  | ident x =>
    refine .map ⟨fun alike => ?_⟩ some
    exact (Builder.intern_agree alike x).bind fun _ _ _ _ alike' hx =>
      Builder.alloc_agree alike' (.ident hx)
  | declare x e =>
    refine .map ⟨fun alike => ?_⟩ some
    exact (Builder.intern_agree alike x).bind fun _ _ _ _ alike' hx =>
      Builder.alloc_agree alike' (.declare hx)
  | assign x e =>
    refine .map ⟨fun alike => ?_⟩ some
    exact (Builder.intern_agree alike x).bind fun _ _ _ _ alike' hx =>
      Builder.alloc_agree alike' (.assign hx)
  | function params body =>
    refine .map ⟨fun alike => ?_⟩ some
    refine (Builder.internAll_agree alike params).bind fun _ _ _ _ alike' hxs => ?_
    refine (Builder.allocParameters_agree alike' hxs).bind ?_
    rintro span _ _ _ alike'' rfl
    exact (Builder.alloc_uniform rfl).agree alike''
  | call f args =>
    refine .map ((Builder.allocArguments_uniform args).bind fun span => ?_) some
    exact Builder.alloc_uniform rfl

/-! ### Trees -/

namespace Tree

variable {η : Type} {fill : η → Build (Option NodeId)}

mutual

/-- Building a tree is uniform, one step after the other. -/
theorem build_uniform (hfill : ∀ h, (fill h).Uniform) (t : Tree η) : (t.build fill).Uniform := by
  match t with
  | .absent => exact .pure none
  | .int n => exact (Construct.int n).perform_uniform
  | .bool x => exact (Construct.bool x).perform_uniform
  | .null => exact Construct.null.perform_uniform
  | .ident x => exact (Construct.ident x).perform_uniform
  | .print e => exact (build_uniform hfill e).bind fun i => (Construct.print _).perform_uniform
  | .declare x e =>
    exact (build_uniform hfill e).bind fun i => (Construct.declare x _).perform_uniform
  | .assign x e =>
    exact (build_uniform hfill e).bind fun i => (Construct.assign x _).perform_uniform
  | .function params e =>
    exact (build_uniform hfill e).bind fun i => (Construct.function params _).perform_uniform
  | .binary token x y =>
    exact (build_uniform hfill x).bind fun i => (build_uniform hfill y).bind fun j =>
      (Construct.binarySymbol token _ _).perform_uniform
  | .loop x y =>
    exact (build_uniform hfill x).bind fun i => (build_uniform hfill y).bind fun j =>
      (Construct.whileLoop _ _).perform_uniform
  | .pair x y =>
    exact (build_uniform hfill x).bind fun i => (build_uniform hfill y).bind fun j =>
      (Construct.seqPair _ _).perform_uniform
  | .cond x y z =>
    exact (build_uniform hfill x).bind fun i => (build_uniform hfill y).bind fun j =>
      (build_uniform hfill z).bind fun k => (Construct.ifElse _ _ _).perform_uniform
  | .seq ts => exact (buildAll_uniform hfill ts).bind fun ids => (Construct.seq ids).perform_uniform
  | .block ts =>
    exact (buildAll_uniform hfill ts).bind fun ids => (Construct.block ids).perform_uniform
  | .scopedBlock ts =>
    exact (buildAll_uniform hfill ts).bind fun ids => (Construct.scopedBlock ids).perform_uniform
  | .call f args =>
    exact (build_uniform hfill f).bind fun i => (buildAll_uniform hfill args).bind fun ids =>
      (Construct.call _ _).perform_uniform
  | .hole h => exact hfill h

theorem buildAll_uniform (hfill : ∀ h, (fill h).Uniform) (ts : List (Tree η)) :
    (buildAll fill ts).Uniform := by
  match ts with
  | [] => exact .pure []
  | t :: ts =>
    exact (build_uniform hfill t).bind fun i => (buildAll_uniform hfill ts).bind fun ids =>
      .pure (i :: ids)

end

end Tree

/-! ### Arenas side by side -/

/-- The shared arenas are founded and differ at most in their names, so all their expressions
correspond. Scopes and closures have the same numbers in both runs. -/
def Translation.ofArenas {names₁ names₂ : Interner} (wf₁ : names₁.WellFormed)
    (wf₂ : names₂.WellFormed) (shared : Code → Code → Prop)
    (founded : ∀ {c₁ c₂}, shared c₁ c₂ → c₁.arena.Founded)
    (alike : ∀ {c₁ c₂}, shared c₁ c₂ → c₁.arena.Alike (names₁.SameText names₂) c₂.arena) :
    Translation where
  names₁ := names₁
  names₂ := names₂
  name := names₁.SameText names₂
  expr c₁ c₂ id := shared c₁ c₂ ∧ c₁.arena.Covers id
  scope := Eq
  closure := Eq
  name_iff := Interner.SameText.eq_iff wf₁ wf₂
  text h := h.lookup_eq
  scope_lt := by
    rintro e _ b _ rfl rfl
    exact Iff.rfl
  id_iff := by
    rintro i _ j _ rfl rfl
    exact Iff.rfl
  node := by
    rintro c₁ c₂ id ⟨hshared, covers⟩ present
    have inside := covers.resolve_left (NodeId.isPresent_iff.mp present)
    obtain ⟨node₁, hnode₁⟩ := Arena.exists_node? inside
    have hnodes := (alike hshared).node? id
    rw [hnode₁] at hnodes
    obtain ⟨node₂, hnode₂, hnode⟩ := hnodes.exists_of_some
    exact ⟨node₁, node₂, ⟨present, hnode₁⟩, ⟨present, hnode₂⟩, hnode⟩
  child := by
    rintro c₁ c₂ id node j ⟨hshared, _⟩ hold hj
    exact ⟨hshared, (founded hshared).covers hold.stored hj⟩
  arguments := by
    rintro c₁ c₂ id f span ⟨hshared, _⟩ hold
    obtain ⟨ids, hids⟩ := Option.isSome_iff_exists.mp ((founded hshared).reads id _ hold.stored)
    refine ⟨ids, hids, ?_⟩
    rw [Arena.arguments?, ← (alike hshared).arguments]
    exact hids
  parameters := by
    rintro c₁ c₂ id span body ⟨hshared, _⟩ hold
    obtain ⟨xs₁, hxs₁⟩ := Option.isSome_iff_exists.mp ((founded hshared).reads id _ hold.stored)
    have hparams := (alike hshared).parameters? span
    rw [hxs₁] at hparams
    obtain ⟨xs₂, hxs₂, hxs⟩ := hparams.exists_of_some
    exact ⟨xs₁, xs₂, hxs₁, hxs₂, hxs⟩

end Treewalk
