import Mathlib.Data.List.Perm.Subperm
import Treewalk.Proofs.Construction

/-! Nodes and their parts. In an arena that came about through a builder, whatever the order of its
steps, the parts of a node have smaller numbers than the node itself, and the stretches that a node
refers to lie inside their tables. -/

namespace Treewalk

/-- The part of a node that is evaluated in a scope of its own. -/
@[simp] def Node.body? : Node → Option NodeId
  | .block e => some e
  | .function _ b => some b
  | _ => none

namespace Arena

/-- The parts of a node that are evaluated in the scope of the node itself, in their order. -/
@[simp] def parts (a : Arena) : Node → List NodeId
  | .print e | .declare _ e | .assign _ e => [e]
  | .binary _ x y | .loop x y | .seq x y => [x, y]
  | .cond c t e => [c, t, e]
  | .call f span => f :: (a.arguments? span).getD []
  | _ => []

/-- All parts of a node. -/
def children (a : Arena) (node : Node) : List NodeId := a.parts node ++ node.body?.toList

/-- The stretch that a node refers to lies inside its table. -/
def Reads (a : Arena) : Node → Prop
  | .call _ span => (a.arguments? span).isSome
  | .function span _ => (a.parameters? span).isSome
  | _ => True

/-- The number stands for no node or for one of the arena. -/
def Covers (a : Arena) (id : NodeId) : Prop := id = .absent ∨ id.index < a.size

/-- The parts of every node have smaller numbers, and every stretch lies inside its table. -/
structure Founded (a : Arena) : Prop where
  children : ∀ i node, a.node? i = some node →
    ∀ j ∈ a.children node, j = .absent ∨ j.index < i.index
  reads : ∀ i node, a.node? i = some node → a.Reads node

/-- The arena `a'` has the nodes of `a` and keeps its lists. -/
structure Lengthens (a a' : Arena) : Prop where
  nodes : a'.nodes = a.nodes
  arguments : ∀ span ids, a.arguments? span = some ids → a'.arguments? span = some ids
  parameters : ∀ span xs, a.parameters? span = some xs → a'.parameters? span = some xs

variable {a a' : Arena} {node : Node} {id : NodeId}

theorem index_lt_size (h : a.node? id = some node) : id.index < a.size :=
  (Array.getElem?_eq_some_iff.mp h).1

theorem exists_node? (h : id.index < a.size) : ∃ node, a.node? id = some node :=
  ⟨a.nodes[id.index], Array.getElem?_eq_getElem h⟩

/-- A node of an arena with one more node is an old one or the new one. -/
theorem node?_push {old : Node} (h : node? { a with nodes := a.nodes.push node } id = some old) :
    a.node? id = some old ∨ (id.index = a.size ∧ node = old) := by
  simp only [node?, Array.getElem?_push] at h ⊢
  split at h
  next heq => exact .inr ⟨heq, Option.some.inj h⟩
  next => exact .inl h

theorem Covers.mono (h : a.Covers id) (hsize : a.size ≤ a'.size) : a'.Covers id := by
  rcases h with h | h
  · exact .inl h
  · exact .inr (by omega)

namespace Lengthens

theorem node?_eq (h : a.Lengthens a') (id : NodeId) : a'.node? id = a.node? id := by
  simp [node?, h.nodes]

theorem holds_iff (h : a.Lengthens a') : a'.Holds id node ↔ a.Holds id node := by
  constructor
  · rintro ⟨present, stored⟩
    exact ⟨present, (h.node?_eq id).symm.trans stored⟩
  · rintro ⟨present, stored⟩
    exact ⟨present, (h.node?_eq id).trans stored⟩

theorem size_eq (h : a.Lengthens a') : a'.size = a.size := by
  simp [size, h.nodes]

theorem reads (h : a.Lengthens a') (hr : a.Reads node) : a'.Reads node := by
  cases node with
  | call f span =>
    obtain ⟨ids, hids⟩ := Option.isSome_iff_exists.mp hr
    simp [Reads, h.arguments span ids hids]
  | function span b =>
    obtain ⟨xs, hxs⟩ := Option.isSome_iff_exists.mp hr
    simp [Reads, h.parameters span xs hxs]
  | _ => trivial

/-- Longer tables do not change the parts of a node whose lists were there. -/
theorem children_eq (h : a.Lengthens a') (hr : a.Reads node) :
    a'.children node = a.children node := by
  cases node with
  | call f span =>
    obtain ⟨ids, hids⟩ := Option.isSome_iff_exists.mp hr
    simp [children, hids, h.arguments span ids hids]
  | _ => rfl

end Lengthens

theorem lengthens_arguments (a : Arena) (ids : List NodeId) :
    a.Lengthens { a with arguments := a.arguments ++ ids } :=
  ⟨rfl, fun _ _ h => Span.slice?_append ids h, fun _ _ h => h⟩

theorem lengthens_parameters (a : Arena) (xs : List Name) :
    a.Lengthens { a with parameters := a.parameters ++ xs } :=
  ⟨rfl, fun _ _ h => h, fun _ _ h => Span.slice?_append xs h⟩

namespace Founded

theorem covers (h : a.Founded) {i j : NodeId} (hnode : a.node? i = some node)
    (hj : j ∈ a.children node) : a.Covers j := by
  have hi := index_lt_size hnode
  rcases h.children i node hnode j hj with habsent | hlt
  · exact .inl habsent
  · exact .inr (Nat.lt_trans hlt hi)

theorem empty : ({} : Arena).Founded := by
  constructor <;> simp [node?]

theorem lengthen (h : a.Founded) (longer : a.Lengthens a') : a'.Founded := by
  constructor
  · intro i node hnode j hj
    rw [longer.node?_eq] at hnode
    rw [longer.children_eq (h.reads i node hnode)] at hj
    exact h.children i node hnode j hj
  · intro i node hnode
    rw [longer.node?_eq] at hnode
    exact longer.reads (h.reads i node hnode)

theorem push (h : a.Founded) (hparts : ∀ j ∈ a.children node, a.Covers j) (hreads : a.Reads node) :
    Founded { a with nodes := a.nodes.push node } := by
  constructor
  · intro i old hnode j hj
    rcases node?_push hnode with hold | ⟨hi, rfl⟩
    · exact h.children i old hold j hj
    · rw [hi]
      exact hparts j hj
  · intro i old hnode
    rcases node?_push hnode with hold | ⟨_, rfl⟩
    · exact h.reads i old hold
    · exact hreads

end Founded

end Arena

/-! ### Steps of construction -/

/-- Whatever the step gives from `b` it gives with `Q`. -/
def Build.Yields {α : Type} (m : Build α) (b : Builder) (Q : α → Builder → Prop) : Prop :=
  ∀ a b', m b = .ok a b' → Q a b'

namespace Build.Yields

variable {α β : Type} {m : Build α} {b : Builder} {Q Q' : α → Builder → Prop}
  {R : β → Builder → Prop}

theorem pure {a : α} (h : Q a b) : Build.Yields (pure a) b Q := by
  intro a' b' hrun
  cases hrun
  exact h

theorem bind {f : α → Build β} (h : m.Yields b Q) (hf : ∀ a b', Q a b' → (f a).Yields b' R) :
    Build.Yields (m >>= f) b R := by
  intro c b' hrun
  simp only [Bind.bind, EStateM.bind] at hrun
  cases hm : m b with
  | ok a b₁ =>
    rw [hm] at hrun
    exact hf a b₁ (h a b₁ hm) c b' hrun
  | error r b₁ =>
    rw [hm] at hrun
    cases hrun

theorem mono (h : m.Yields b Q) (hQ : ∀ a b', Q a b' → Q' a b') : m.Yields b Q' :=
  fun a b' hrun => hQ a b' (h a b' hrun)

theorem map {f : α → β} (h : m.Yields b fun a b' => R (f a) b') : Build.Yields (f <$> m) b R := by
  rw [map_eq_pure_bind]
  exact h.bind fun a b' hQ => pure hQ

end Build.Yields

namespace Builder

variable {b : Builder}

theorem intern_yields (s : String) : (intern s).Yields b fun _ b' => b'.arena = b.arena := by
  intro x b' hrun
  simp only [intern, onNames] at hrun
  split at hrun
  · cases hrun
    rfl
  · cases hrun

theorem internAll_yields (params : List String) :
    (params.mapM intern).Yields b fun _ b' => b'.arena = b.arena := by
  induction params generalizing b with
  | nil => exact .pure rfl
  | cons p params ih =>
    rw [List.mapM_cons]
    refine (intern_yields p).bind fun x b₁ h₁ => ih.bind fun xs b₂ h₂ => .pure ?_
    rw [h₂, h₁]

/-- A new node is stored at the end of the table, under the number of its place. -/
theorem alloc_yields (node : Node) :
    (alloc node).Yields b fun id b' => id.index = b.arena.size ∧
      b'.arena = { b.arena with nodes := b.arena.nodes.push node } := by
  intro id b' hrun
  simp only [alloc, onArena, Arena.allocNode] at hrun
  by_cases room : b.arena.nodes.size ≤ maxIndex
  · simp only [room, if_true] at hrun
    cases hrun
    exact ⟨toNat_ofNat_index room, rfl⟩
  · simp [room] at hrun

theorem allocArguments_yields (ids : List NodeId) :
    (onArena (Arena.allocArguments ids)).Yields b fun span b' =>
      b.arena.Lengthens b'.arena ∧ b'.arena.arguments? span = some ids := by
  intro span b' hrun
  have short := allocArguments_ensures ids b span b' hrun
  by_cases room : b.arena.arguments.size ≤ maxIndex
  · simp only [onArena, Arena.allocArguments, Span.append_of_le room short] at hrun
    cases hrun
    exact ⟨Arena.lengthens_arguments _ _, Span.slice?_of_append room short⟩
  · simp [onArena, Arena.allocArguments, Span.append, room] at hrun

theorem allocParameters_yields (xs : List Name) :
    (onArena (Arena.allocParameters xs)).Yields b fun span b' =>
      b.arena.Lengthens b'.arena ∧ b'.arena.parameters? span = some xs := by
  intro span b' hrun
  have short := allocParameters_ensures xs b span b' hrun
  by_cases room : b.arena.parameters.size ≤ maxIndex
  · simp only [onArena, Arena.allocParameters, Span.append_of_le room short] at hrun
    cases hrun
    exact ⟨Arena.lengthens_parameters _ _, Span.slice?_of_append room short⟩
  · simp [onArena, Arena.allocParameters, Span.append, room] at hrun

end Builder

/-! ### Sequences of steps -/

/-- The steps that a builder offers, with their arguments. -/
inductive Construct where
  | int (value : Int64)
  | bool (value : Bool)
  | null
  | ident (name : String)
  | print (operand : NodeId)
  | binary (op : Operator) (left right : NodeId)
  | binarySymbol (token : String) (left right : NodeId)
  | ifThen (test yes : NodeId)
  | ifElse (test yes no : NodeId)
  | whileLoop (test body : NodeId)
  | seqPair (first second : NodeId)
  | seq (statements : List (Option NodeId))
  | program (statements : List (Option NodeId))
  | block (statements : List (Option NodeId))
  | scopedBlock (statements : List (Option NodeId))
  | declare (name : String) (init : NodeId)
  | assign (name : String) (value : NodeId)
  | function (params : List String) (body : NodeId)
  | call (callee : NodeId) (args : List NodeId)

namespace Construct

/-- Takes the step. -/
def perform : Construct → Build (Option NodeId)
  | int n => some <$> Builder.int n
  | bool b => some <$> Builder.bool b
  | null => some <$> Builder.null
  | ident x => some <$> Builder.ident x
  | print e => some <$> Builder.print e
  | binary op l r => some <$> Builder.binary op l r
  | binarySymbol token l r => Builder.binarySymbol token l r
  | ifThen c t => some <$> Builder.ifThen c t
  | ifElse c t e => some <$> Builder.ifElse c t e
  | whileLoop c b => some <$> Builder.whileLoop c b
  | seqPair x y => some <$> Builder.seqPair x y
  | seq ids => Builder.seq ids
  | program ids => Builder.program ids
  | block ids => Builder.block ids
  | scopedBlock ids => Builder.scopedBlock ids
  | declare x e => some <$> Builder.declare x e
  | assign x e => some <$> Builder.assign x e
  | function params b => some <$> Builder.function params b
  | call f args => some <$> Builder.call f args

/-- The numbers that the step refers to. -/
def ids : Construct → List NodeId
  | int _ | bool _ | null | ident _ => []
  | print e | declare _ e | assign _ e | function _ e => [e]
  | binary _ x y | binarySymbol _ x y | ifThen x y | whileLoop x y | seqPair x y => [x, y]
  | ifElse c t e => [c, t, e]
  | seq ids | program ids | block ids | scopedBlock ids => ids.filterMap id
  | call f args => f :: args

end Construct

/-- The builders that come about from one without nodes, each with the numbers that it gave so far.
A step refers to such numbers or to absent nodes. As the interner is shared, others may intern
strings between the steps. -/
inductive Builder.Grown : Builder → List NodeId → Prop where
  | start (names : Interner) : Grown ⟨names, {}⟩ []
  | intern {b : Builder} {known : List NodeId} {s : String} {x : Name} {names : Interner}
      (h : Grown b known) (done : Interner.intern s b.names = .ok x names) :
      Grown ⟨names, b.arena⟩ known
  | construct {b b' : Builder} {known : List NodeId} {root : Option NodeId} (h : Grown b known)
      (c : Construct) (earlier : ∀ i ∈ c.ids, i = .absent ∨ i ∈ known)
      (done : c.perform b = .ok root b') : Grown b' (root.toList ++ known)

/-- The arena is the work of a builder. -/
def Arena.Produced (a : Arena) : Prop := ∃ b known, Builder.Grown b known ∧ b.arena = a

/-- What a statement about an arena and some of its numbers needs to stay true during construction:
longer tables keep it, fewer numbers keep it, and a new node may stand in for its parts. -/
structure Arena.Stable (P : Arena → List NodeId → Prop) : Prop where
  absent {a ids} : P a ids → P a (.absent :: ids)
  fewer {a ids ids'} : P a ids → ids'.Subperm ids → P a ids'
  lengthen {a a' ids} : P a ids → a.Lengthens a' → P a' ids
  push {a node id ids} : P a (a.children node ++ ids) → a.Reads node → id.index = a.size →
    P { a with nodes := a.nodes.push node } (id :: ids)

section Stable

variable {P : Arena → List NodeId → Prop} {b : Builder} {ids : List NodeId}

namespace Builder

theorem alloc_keeps (stable : Arena.Stable P) {node : Node}
    (h : P b.arena (b.arena.children node ++ ids)) (hreads : b.arena.Reads node) :
    (alloc node).Yields b fun id b' => P b'.arena (id :: ids) := by
  refine (alloc_yields node).mono ?_
  rintro id b' ⟨hid, harena⟩
  rw [harena]
  exact stable.push h hreads hid

theorem seqBefore_keeps (stable : Arena.Stable P) {second : NodeId} {earlier : List NodeId}
    (h : P b.arena (second :: (earlier ++ ids))) :
    (seqBefore second earlier).Yields b fun id b' => P b'.arena (id :: ids) := by
  induction earlier generalizing b second with
  | nil => exact .pure h
  | cons first earlier ih =>
    have hparts : P b.arena ([first, second] ++ (earlier ++ ids)) :=
      stable.fewer h (List.Perm.swap second first _).subperm
    have hpair : (seqPair first second).Yields b fun id b' => P b'.arena (id :: (earlier ++ ids)) :=
      alloc_keeps stable hparts trivial
    exact hpair.bind fun id b₁ h₁ => ih h₁

theorem seq_keeps (stable : Arena.Stable P) {statements : List (Option NodeId)}
    (h : P b.arena (statements.filterMap id ++ ids)) :
    (seq statements).Yields b fun root b' => P b'.arena (.ofOption root :: ids) := by
  have hrev : P b.arena ((statements.filterMap id).reverse ++ ids) :=
    stable.fewer h ((List.reverse_perm _).append_right ids).subperm
  unfold seq
  split
  next heq =>
    rw [heq] at hrev
    exact .pure (stable.absent hrev)
  next last earlier heq =>
    rw [heq] at hrev
    exact .map (seqBefore_keeps stable hrev)

end Builder

/-- Whatever step is taken, its result may stand in for the numbers that it refers to. -/
theorem Construct.perform_keeps (stable : Arena.Stable P) (c : Construct)
    (h : P b.arena (c.ids ++ ids)) :
    c.perform.Yields b fun root b' => P b'.arena (.ofOption root :: ids) := by
  cases c with
  | int _ | bool _ | null | print _ | binary _ _ _ | ifElse _ _ _ | whileLoop _ _ | seqPair _ _ =>
    exact .map (Builder.alloc_keeps stable h trivial)
  | ifThen c t =>
    have hperm : List.Perm ([c, t] ++ .absent :: ids) (.absent :: ([c, t] ++ ids)) :=
      List.perm_middle
    have hparts := stable.fewer (stable.absent h) hperm.subperm
    exact .map (Builder.alloc_keeps stable hparts trivial)
  | binarySymbol token l r =>
    simp only [perform, Builder.binarySymbol]
    split
    · exact .map (Builder.alloc_keeps stable h trivial)
    · exact .pure (stable.absent (stable.fewer h (List.sublist_append_right _ _).subperm))
  | seq _ | program _ | block _ => exact Builder.seq_keeps stable h
  | scopedBlock statements =>
    refine (Builder.seq_keeps stable h).bind fun root b₁ hroot => ?_
    cases root with
    | none => exact .pure hroot
    | some body => exact .map (Builder.alloc_keeps stable hroot trivial)
  | ident x | declare x _ | assign x _ =>
    refine .map ((Builder.intern_yields x).bind fun y b₁ same => ?_)
    rw [← same] at h
    exact Builder.alloc_keeps stable h trivial
  | function params body =>
    refine .map ((Builder.internAll_yields params).bind fun xs b₁ same => ?_)
    rw [← same] at h
    refine (Builder.allocParameters_yields xs).bind fun span b₂ hspan => ?_
    refine Builder.alloc_keeps stable (stable.lengthen h hspan.1) ?_
    simp [Arena.Reads, hspan.2]
  | call f args =>
    refine .map ((Builder.allocArguments_yields args).bind fun span b₁ hspan => ?_)
    refine Builder.alloc_keeps stable ?_ ?_
    · simpa [Arena.children, hspan.2, Construct.ids] using stable.lengthen h hspan.1
    · simp [Arena.Reads, hspan.2]

end Stable

theorem Arena.stable_founded :
    Arena.Stable fun a ids => a.Founded ∧ ∀ i ∈ ids, a.Covers i where
  absent h := ⟨h.1, List.forall_mem_cons.mpr ⟨.inl rfl, h.2⟩⟩
  fewer h hsub := ⟨h.1, fun i hi => h.2 i (hsub.subset hi)⟩
  lengthen h longer :=
    ⟨h.1.lengthen longer, fun i hi => (h.2 i hi).mono (Nat.le_of_eq longer.size_eq.symm)⟩
  push := by
    intro a node id ids h hreads hid
    have hcovers : ∀ i, a.Covers i → Covers { a with nodes := a.nodes.push node } i :=
      fun i hi => hi.mono (by simp [size])
    refine ⟨h.1.push (fun j hj => h.2 j (List.mem_append_left _ hj)) hreads, ?_⟩
    rw [List.forall_mem_cons]
    exact ⟨.inr (by simp [size, hid]), fun i hi => hcovers i (h.2 i (List.mem_append_right _ hi))⟩

/-- Along every sequence of steps the arena is founded and covers the numbers that were given. -/
theorem Builder.Grown.founded {b : Builder} {known : List NodeId} (h : b.Grown known) :
    b.arena.Founded ∧ ∀ i ∈ known, b.arena.Covers i := by
  induction h with
  | start names => exact ⟨.empty, by simp⟩
  | intern _ _ ih => exact ih
  | @construct b b' known root _ c earlier done ih =>
    have hids : ∀ i ∈ c.ids ++ known, b.arena.Covers i := by
      rw [List.forall_mem_append]
      refine ⟨fun i hi => ?_, ih.2⟩
      rcases earlier i hi with rfl | hknown
      · exact .inl rfl
      · exact ih.2 i hknown
    have hnext := c.perform_keeps Arena.stable_founded ⟨ih.1, hids⟩ root b' done
    cases root with
    | none => exact ⟨hnext.1, (List.forall_mem_cons.mp hnext.2).2⟩
    | some id => exact hnext

theorem Arena.Produced.founded {a : Arena} (h : a.Produced) : a.Founded := by
  obtain ⟨b, known, hgrown, rfl⟩ := h
  exact hgrown.founded.1

end Treewalk
