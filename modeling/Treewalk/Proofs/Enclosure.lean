import Treewalk.Proofs.Denotation
import Treewalk.Proofs.Foundedness

/-! The text of a program as its nodes show it. Building a program uses every node that it stores at
most once, so the nodes that belong to the program form a tree, and every node of it lies at one
site: inside one sequence of blocks and function literals. -/

namespace Treewalk

theorem NodeId.index_injective {i j : NodeId} (h : i.index = j.index) : i = j := by
  obtain ⟨i⟩ := i
  obtain ⟨j⟩ := j
  exact congrArg NodeId.mk (UInt32.toNat_inj.mp h)

/-- A site in a program: the blocks and function literals around it, from the inside out. -/
abbrev Site := List NodeId

/-- The site of the parts of the node `i`: a block or a function literal lies around its body. -/
@[simp] def Node.within (i : NodeId) (site : Site) : Node → Site
  | .block _ | .function _ _ => i :: site
  | _ => site

namespace Arena

/-- The node `j`, which is there, is a part of the node `i`. -/
def Child (a : Arena) (i j : NodeId) : Prop :=
  j ≠ .absent ∧ ∃ node, a.Holds i node ∧ j ∈ a.children node

/-- The nodes from the position `lo` on form a forest in which none of the nodes `roots` lies inside
another node. -/
structure Forest (a : Arena) (lo : Nat) (roots : List NodeId) : Prop where
  start : lo ≤ a.size
  inside : ∀ r ∈ roots, r ≠ .absent → lo ≤ r.index ∧ r.index < a.size
  distinct : ∀ r, r ≠ .absent → roots.count r ≤ 1
  free : ∀ r ∈ roots, ∀ i, lo ≤ i.index → ¬ a.Child i r
  below : ∀ i j, lo ≤ i.index → a.Child i j → lo ≤ j.index ∧ j.index < a.size
  single : ∀ i i' j, lo ≤ i.index → lo ≤ i'.index → a.Child i j → a.Child i' j → i = i'
  reads : ∀ i node, lo ≤ i.index → a.node? i = some node → a.Reads node

/-- The node `j` of the program with the given root lies at a site. -/
inductive Encloses (a : Arena) (root : NodeId) : Site → NodeId → Prop where
  | root : Encloses a root [] root
  | child {site i node j} (h : Encloses a root site i) (hold : a.Holds i node)
      (hj : j ∈ a.children node) : Encloses a root (node.within i site) j

variable {a a' : Arena} {lo : Nat} {roots : List NodeId} {id root : NodeId} {node : Node}

theorem Holds.ne_absent (h : a.Holds id node) : id ≠ .absent := NodeId.isPresent_iff.mp h.present

theorem Holds.unique {other : Node} (h : a.Holds id node) (h' : a.Holds id other) :
    node = other :=
  Option.some.inj (h.stored.symm.trans h'.stored)

namespace Forest

theorem empty (a : Arena) : a.Forest a.size [] where
  start := Nat.le_refl _
  inside := by simp
  distinct := by simp
  free := by simp
  below i j hi := by
    rintro ⟨_, node, hold, _⟩
    have := index_lt_size hold.stored
    omega
  single i i' j hi := by
    rintro _ ⟨_, node, hold, _⟩
    have := index_lt_size hold.stored
    omega
  reads i node hi hnode := by
    have := index_lt_size hnode
    omega

/-- Longer tables do not change which nodes are parts of a node of the forest. -/
theorem child_lengthen (h : a.Forest lo roots) (longer : a.Lengthens a') {i j : NodeId}
    (hi : lo ≤ i.index) : a'.Child i j ↔ a.Child i j := by
  simp only [Child, longer.holds_iff]
  refine and_congr_right fun _ => exists_congr fun node => and_congr_right fun hold => ?_
  rw [longer.children_eq (h.reads i node hi hold.stored)]

theorem lengthen (h : a.Forest lo roots) (longer : a.Lengthens a') : a'.Forest lo roots where
  start := by
    rw [longer.size_eq]
    exact h.start
  inside r hr := by
    rw [longer.size_eq]
    exact h.inside r hr
  distinct := h.distinct
  free r hr i hi hchild := h.free r hr i hi ((h.child_lengthen longer hi).mp hchild)
  below i j hi hchild := by
    rw [longer.size_eq]
    exact h.below i j hi ((h.child_lengthen longer hi).mp hchild)
  single i i' j hi hi' hj hj' := by
    rw [h.child_lengthen longer] at hj hj'
    · exact h.single i i' j hi hi' hj hj'
    · exact hi'
    · exact hi
  reads i node hi hnode := by
    rw [longer.node?_eq] at hnode
    exact longer.reads (h.reads i node hi hnode)

end Forest

/-- The parts of the nodes after one more node was stored. -/
theorem child_push {i j : NodeId} (h : Child { a with nodes := a.nodes.push node } i j) :
    a.Child i j ∨ (i.index = a.size ∧ j ≠ .absent ∧ j ∈ a.children node) := by
  obtain ⟨hj, old, hold, hmem⟩ := h
  rcases node?_push hold.stored with hstored | ⟨hi, rfl⟩
  · exact .inl ⟨hj, old, ⟨hold.present, hstored⟩, hmem⟩
  · exact .inr ⟨hi, hj, hmem⟩

/-- A new node takes the place of its parts among the roots. -/
theorem Forest.push (h : a.Forest lo (a.children node ++ roots)) (hreads : a.Reads node)
    (hid : id.index = a.size) :
    Forest { a with nodes := a.nodes.push node } lo (id :: roots) := by
  have hsize : size { a with nodes := a.nodes.push node } = a.size + 1 := by simp [size]
  have hroot : ∀ r ∈ roots, r ∈ a.children node ++ roots := fun r => List.mem_append_right _
  have hpart : ∀ j ∈ a.children node, j ∈ a.children node ++ roots := fun j =>
    List.mem_append_left _
  have hnew : ∀ r ∈ a.children node ++ roots, r ≠ .absent → r ≠ id := by
    rintro r hr present rfl
    have := h.inside r hr present
    omega
  -- a part of the new node that stayed a root would have been counted twice
  have hapart : ∀ r ∈ roots, r ≠ .absent → r ∉ a.children node := by
    intro r hr present hchild
    have hcount := h.distinct r present
    rw [List.count_append] at hcount
    have := List.count_pos_iff.mpr hr
    have := List.count_pos_iff.mpr hchild
    omega
  constructor
  case start =>
    have := h.start
    omega
  case inside =>
    intro r hr present
    rcases List.mem_cons.mp hr with rfl | hr
    · have := h.start
      omega
    · have := h.inside r (hroot r hr) present
      omega
  case distinct =>
    intro r present
    have hcount := h.distinct r present
    rw [List.count_append] at hcount
    by_cases hr : r = id
    · subst hr
      have hfresh : r ∉ roots := fun hmem => hnew r (hroot r hmem) present rfl
      simp [List.count_eq_zero.mpr hfresh]
    · rw [List.count_cons_of_ne (Ne.symm hr)]
      omega
  case free =>
    intro r hr i hi hchild
    rcases child_push hchild with hold | ⟨_, present, hmem⟩
    · rcases List.mem_cons.mp hr with rfl | hr
      · have := h.below i r hi hold
        omega
      · exact h.free r (hroot r hr) i hi hold
    · rcases List.mem_cons.mp hr with rfl | hr
      · exact hnew r (hpart r hmem) present rfl
      · exact hapart r hr present hmem
  case below =>
    intro i j hi hchild
    rcases child_push hchild with hold | ⟨_, present, hmem⟩
    · have := h.below i j hi hold
      omega
    · have := h.inside j (hpart j hmem) present
      omega
  case single =>
    intro i i' j hi hi' hj hj'
    rcases child_push hj with hold | ⟨heq, _, hmem⟩
    · rcases child_push hj' with hold' | ⟨_, _, hmem'⟩
      · exact h.single i i' j hi hi' hold hold'
      · exact absurd hold (h.free j (hpart j hmem') i hi)
    · rcases child_push hj' with hold' | ⟨heq', _⟩
      · exact absurd hold' (h.free j (hpart j hmem) i' hi')
      · exact NodeId.index_injective (heq.trans heq'.symm)
  case reads =>
    intro i old hi hnode
    rcases node?_push hnode with hstored | ⟨_, rfl⟩
    · exact h.reads i old hi hstored
    · exact hreads

theorem stable_forest (lo : Nat) : Stable fun a => a.Forest lo where
  absent h :=
    { h with
      inside := List.forall_mem_cons.mpr ⟨fun present => absurd rfl present, h.inside⟩
      distinct := fun r present => by
        rw [List.count_cons_of_ne (Ne.symm present)]
        exact h.distinct r present
      free := List.forall_mem_cons.mpr ⟨fun i _ hchild => hchild.1 rfl, h.free⟩ }
  fewer h hsub :=
    { h with
      inside := fun r hr => h.inside r (hsub.subset hr)
      distinct := fun r present => Nat.le_trans (hsub.count_le r) (h.distinct r present)
      free := fun r hr => h.free r (hsub.subset hr) }
  lengthen := Forest.lengthen
  push := Forest.push

/-! ### Places -/

namespace Encloses

/-- The nodes of the program are nodes of the forest. -/
theorem lo_le {site : Site} {j : NodeId} (h : a.Encloses root site j)
    (forest : a.Forest lo [root]) (present : j ≠ .absent) : lo ≤ j.index := by
  induction h with
  | root => exact (forest.inside root List.mem_cons_self present).1
  | @child _ i node j _ hold hj ih =>
    have hi := ih hold.ne_absent
    exact (forest.below i j hi ⟨present, node, hold, hj⟩).1

/-- A node of the program lies at one site. -/
theorem unique {p q : Site} {j : NodeId} (hp : a.Encloses root p j) (hq : a.Encloses root q j)
    (forest : a.Forest lo [root]) (present : j ≠ .absent) : p = q := by
  induction hp generalizing q with
  | root =>
    cases hq with
    | root => rfl
    | @child _ i node _ hi hold hj =>
      have hlo := hi.lo_le forest hold.ne_absent
      exact absurd ⟨present, node, hold, hj⟩ (forest.free root List.mem_cons_self i hlo)
  | @child p i node j hi hold hj ih =>
    have hlo := hi.lo_le forest hold.ne_absent
    have hchild : a.Child i j := ⟨present, node, hold, hj⟩
    cases hq with
    | root => exact absurd hchild (forest.free root List.mem_cons_self i hlo)
    | @child q i' node' _ hi' hold' hj' =>
      -- the node has one parent, which lies at one site
      have hlo' := hi'.lo_le forest hold'.ne_absent
      obtain rfl := forest.single i i' j hlo hlo' hchild ⟨present, node', hold', hj'⟩
      obtain rfl := hold.unique hold'
      rw [ih hi' hold.ne_absent]

/-- The parts of a node lie where the node lies. -/
theorem part {site : Site} {i j : NodeId} (h : a.Encloses root site i) (hold : a.Holds i node)
    (hj : j ∈ a.parts node) : a.Encloses root site j := by
  have hchild := h.child hold (List.mem_append_left _ hj)
  cases node with
  | block | function => simp at hj
  | _ => exact hchild

end Encloses

end Arena

/-! ### Trees -/

theorem Builder.filterMap_sublist (roots : List (Option NodeId)) :
    (roots.filterMap id).Sublist (roots.map .ofOption) := by
  induction roots with
  | nil => exact .slnil
  | cons root roots ih =>
    cases root with
    | none => exact ih.cons _
    | some i => exact ih.cons_cons i

namespace Tree

variable {P : Arena → List NodeId → Prop} {b : Builder}

section Steps

variable {ids : List NodeId} {m : Build (Option NodeId)}

/-- A step on the roots of trees that were built from left to right. -/
theorem perform_buildAll (stable : Arena.Stable P) (c : Construct) {roots : List NodeId}
    (hids : c.ids.Subperm roots) (h : P b.arena (roots.reverse ++ ids)) :
    c.perform.Yields b fun root b' => P b'.arena (.ofOption root :: ids) := by
  refine c.perform_keeps stable (stable.fewer h ?_)
  have hrev : c.ids.Subperm roots.reverse := hids.trans (List.reverse_perm roots).symm.subperm
  exact (List.subperm_append_right ids).mpr hrev

/-- Building a part and then the node over it. -/
theorem build_one (stable : Arena.Stable P) (c : NodeId → Construct) (hc : ∀ i, (c i).ids = [i])
    (hm : m.Yields b fun root b' => P b'.arena (.ofOption root :: ids)) :
    Build.Yields (m >>= fun i => (c (.ofOption i)).perform) b
      fun root b' => P b'.arena (.ofOption root :: ids) := by
  refine hm.bind fun i b₁ h₁ => (c _).perform_keeps stable ?_
  rw [hc]
  exact h₁

/-- Building two parts and then the node over them. -/
theorem build_two (stable : Arena.Stable P) (c : NodeId → NodeId → Construct)
    (hc : ∀ i j, (c i j).ids = [i, j]) {m' : Build (Option NodeId)}
    (hm : m.Yields b fun root b' => P b'.arena (.ofOption root :: ids))
    (hm' : ∀ {b ids}, P b.arena ids →
      m'.Yields b fun root b' => P b'.arena (.ofOption root :: ids)) :
    Build.Yields (m >>= fun i => m' >>= fun j => (c (.ofOption i) (.ofOption j)).perform) b
      fun root b' => P b'.arena (.ofOption root :: ids) := by
  refine hm.bind fun i b₁ h₁ => (hm' h₁).bind fun j b₂ h₂ => ?_
  have hids : (c (.ofOption i) (.ofOption j)).ids.Subperm [.ofOption i, .ofOption j] := by
    rw [hc]
  exact perform_buildAll stable _ hids h₂

/-- Building statements and then what consists of them. -/
theorem build_list (stable : Arena.Stable P) (c : List (Option NodeId) → Construct)
    (hc : ∀ roots, (c roots).ids = roots.filterMap id) {m : Build (List (Option NodeId))}
    (hm : m.Yields b fun roots b' => P b'.arena ((roots.map .ofOption).reverse ++ ids)) :
    Build.Yields (m >>= fun roots => (c roots).perform) b
      fun root b' => P b'.arena (.ofOption root :: ids) := by
  refine hm.bind fun roots b₁ h₁ => perform_buildAll stable _ ?_ h₁
  rw [hc]
  exact (Builder.filterMap_sublist roots).subperm

end Steps

mutual

/-- Building a tree puts its root to the numbers at hand. -/
theorem build_keeps (stable : Arena.Stable P) (t : Term) {ids : List NodeId} {b : Builder}
    (h : P b.arena ids) :
    (t.build Empty.elim).Yields b fun root b' => P b'.arena (.ofOption root :: ids) := by
  match t with
  | .absent => exact .pure (stable.absent h)
  | .int n => exact (Construct.int n).perform_keeps stable h
  | .bool x => exact (Construct.bool x).perform_keeps stable h
  | .null => exact Construct.null.perform_keeps stable h
  | .ident x => exact (Construct.ident x).perform_keeps stable h
  | .print e => exact build_one stable .print (fun _ => rfl) (build_keeps stable e h)
  | .declare x e => exact build_one stable (.declare x) (fun _ => rfl) (build_keeps stable e h)
  | .assign x e => exact build_one stable (.assign x) (fun _ => rfl) (build_keeps stable e h)
  | .function params e =>
    exact build_one stable (.function params) (fun _ => rfl) (build_keeps stable e h)
  | .binary token x y =>
    exact build_two stable (.binarySymbol token) (fun _ _ => rfl) (build_keeps stable x h)
      (build_keeps stable y)
  | .loop x y =>
    exact build_two stable .whileLoop (fun _ _ => rfl) (build_keeps stable x h)
      (build_keeps stable y)
  | .pair x y =>
    exact build_two stable .seqPair (fun _ _ => rfl) (build_keeps stable x h)
      (build_keeps stable y)
  | .cond x y z =>
    rw [build]
    refine (build_keeps stable x h).bind fun i b₁ h₁ => ?_
    refine (build_keeps stable y h₁).bind fun j b₂ h₂ => ?_
    refine (build_keeps stable z h₂).bind fun k b₃ h₃ => ?_
    exact perform_buildAll stable (.ifElse _ _ _) (.refl [_, _, _]) h₃
  | .seq ts => exact build_list stable .seq (fun _ => rfl) (buildAll_keeps stable ts h)
  | .block ts => exact build_list stable .block (fun _ => rfl) (buildAll_keeps stable ts h)
  | .scopedBlock ts =>
    exact build_list stable .scopedBlock (fun _ => rfl) (buildAll_keeps stable ts h)
  | .call f args =>
    rw [build]
    refine (build_keeps stable f h).bind fun i b₁ h₁ => ?_
    refine (buildAll_keeps stable args h₁).bind fun roots b₂ h₂ => ?_
    refine perform_buildAll stable (.call _ _) (.refl (_ :: _)) ?_
    simpa using h₂

/-- Building trees puts their roots to the numbers at hand, the last one first. -/
theorem buildAll_keeps (stable : Arena.Stable P) (ts : List Term) {ids : List NodeId} {b : Builder}
    (h : P b.arena ids) :
    (buildAll Empty.elim ts).Yields b fun roots b' =>
      P b'.arena ((roots.map .ofOption).reverse ++ ids) := by
  match ts with
  | [] => exact .pure h
  | t :: ts =>
    rw [buildAll]
    refine (build_keeps stable t h).bind fun root b₁ h₁ => ?_
    refine (buildAll_keeps stable ts h₁).bind fun roots b₂ h₂ => .pure ?_
    simpa using h₂

end

/-- A program that was built is a forest with one root. -/
theorem forest_of_buildProgram {b' : Builder} {trees : List Term} {root : Option NodeId}
    (h : buildProgram Empty.elim trees b = .ok root b') :
    b'.arena.Forest b.arena.size [.ofOption root] :=
  build_keeps (Arena.stable_forest _) (.seq trees) (.empty b.arena) root b' h

/-- Building a program keeps an arena founded, and the arena covers the root. -/
theorem founded_of_buildProgram {b' : Builder} {trees : List Term} {root : Option NodeId}
    (founded : b.arena.Founded) (h : buildProgram Empty.elim trees b = .ok root b') :
    b'.arena.Founded ∧ b'.arena.Covers (.ofOption root) := by
  have hnone : ∀ i ∈ ([] : List NodeId), b.arena.Covers i := fun _ hi => nomatch hi
  have hbuilt := build_keeps Arena.stable_founded (.seq trees) ⟨founded, hnone⟩ root b' h
  exact ⟨hbuilt.1, hbuilt.2 _ List.mem_cons_self⟩

end Tree

end Treewalk
