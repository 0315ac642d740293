import Treewalk.Proofs.BigStep
import Treewalk.Proofs.Construction

/-! Which trees the nodes of an arena stand for, and that building a tree stores nodes that stand
for it. -/

namespace Treewalk.Tree

mutual

/-- The number stands for the tree, given the names and the arena that the number refers to. -/
def Denotes (names : Interner) (a : Arena) : Term → NodeId → Prop
  | .absent, id => id = .absent
  | .int n, id => a.Holds id (.int n)
  | .bool b, id => a.Holds id (.bool b)
  | .null, id => a.Holds id .null
  | .ident x, id => ∃ y, names.get? y = some x ∧ a.Holds id (.ident y)
  | .print e, id => ∃ i, a.Holds id (.print i) ∧ Denotes names a e i
  | .binary token l r, id =>
    match Operator.ofToken? token with
    | some op => ∃ i j, a.Holds id (.binary op i j) ∧ Denotes names a l i ∧ Denotes names a r j
    | none => id = .absent
  | .cond c t e, id =>
    ∃ i j k, a.Holds id (.cond i j k) ∧ Denotes names a c i ∧ Denotes names a t j ∧
      Denotes names a e k
  | .loop c b, id => ∃ i j, a.Holds id (.loop i j) ∧ Denotes names a c i ∧ Denotes names a b j
  | .pair x y, id => ∃ i j, a.Holds id (.seq i j) ∧ Denotes names a x i ∧ Denotes names a y j
  | .seq ts, id | .block ts, id => DenotesSeq names a ts id
  | .scopedBlock ts, id =>
    if anyPresent ts then ∃ i, a.Holds id (.block i) ∧ DenotesSeq names a ts i else id = .absent
  | .declare x e, id =>
    ∃ y i, names.get? y = some x ∧ a.Holds id (.declare y i) ∧ Denotes names a e i
  | .assign x e, id =>
    ∃ y i, names.get? y = some x ∧ a.Holds id (.assign y i) ∧ Denotes names a e i
  | .function params b, id =>
    ∃ span ys i, a.Holds id (.function span i) ∧ a.parameters? span = some ys ∧
      List.Forall₂ (fun y p => names.get? y = some p) ys params ∧ Denotes names a b i
  | .call f args, id =>
    ∃ i span ids, a.Holds id (.call i span) ∧ Denotes names a f i ∧
      a.arguments? span = some ids ∧ DenotesAll names a args ids

/-- The number stands for those statements of a list that are there, in their order. -/
def DenotesSeq (names : Interner) (a : Arena) : List Term → NodeId → Prop
  | [], id => id = .absent
  | t :: ts, id =>
    if t.isPresent then
      if anyPresent ts then
        ∃ i j, a.Holds id (.seq i j) ∧ Denotes names a t i ∧ DenotesSeq names a ts j
      else Denotes names a t id
    else DenotesSeq names a ts id

/-- The numbers stand for the trees of a list, one by one. -/
def DenotesAll (names : Interner) (a : Arena) : List Term → List NodeId → Prop
  | [], ids => ids = []
  | t :: ts, ids => ∃ i rest, ids = i :: rest ∧ Denotes names a t i ∧ DenotesAll names a ts rest

end

mutual

/-- Every list of arguments or parameters has a length that fits in 16 bits. -/
def listsFit : Term → Bool
  | .print e | .declare _ e | .assign _ e => listsFit e
  | .binary _ x y | .loop x y | .pair x y => listsFit x && listsFit y
  | .cond c t e => listsFit c && listsFit t && listsFit e
  | .seq ts | .block ts | .scopedBlock ts => allListsFit ts
  | .function params b => params.length ≤ maxListLength && listsFit b
  | .call f args => args.length ≤ maxListLength && listsFit f && allListsFit args
  | _ => true

def allListsFit : List Term → Bool
  | [] => true
  | t :: ts => listsFit t && allListsFit ts

end

/-- The optional number was built for the tree. -/
structure Built (t : Term) (root : Option NodeId) (b : Builder) : Prop where
  present : root.isSome = t.isPresent
  denotes : b.Always fun b' => t.Denotes b'.names b'.arena (.ofOption root)

theorem Built.later {t : Term} {root : Option NodeId} {b b' : Builder} (h : t.Built root b)
    (grown : b.Extends b') : t.Built root b' :=
  ⟨h.present, h.denotes.later grown⟩

theorem anyPresent_eq {b : Builder} {ts : List Term} {roots : List (Option NodeId)}
    (h : List.Forall₂ (fun t root => Built t root b) ts roots) :
    anyPresent ts = roots.any Option.isSome := by
  induction h with
  | nil => rfl
  | cons ht _ ih => rw [anyPresent, List.any_cons, ht.present, ih]

theorem denotesSeq_of_chain {b b' : Builder} {ts : List Term} {roots : List (Option NodeId)}
    (h : List.Forall₂ (fun t root => Built t root b) ts roots) (grown : b.Extends b')
    (fits : b'.arena.size ≤ maxIndex) {i : NodeId}
    (chain : b'.arena.Chain (roots.filterMap id) i) : DenotesSeq b'.names b'.arena ts i := by
  induction h generalizing i with
  | nil => exact chain
  | @cons t root ts roots ht hts ih =>
    have hroot := ht.present
    have hdenotes := ht.denotes b' grown fits
    have hmore := anyPresent_eq hts
    rw [DenotesSeq]
    cases root with
    | none =>
      rw [Option.isSome_none] at hroot
      rw [if_neg (by simp [← hroot])]
      exact ih chain
    | some j =>
      rw [Option.isSome_some] at hroot
      rw [if_pos hroot.symm]
      rw [show (some j :: roots).filterMap id = j :: roots.filterMap id from rfl] at chain
      rw [Builder.any_isSome_eq] at hmore
      cases hrest : roots.filterMap id with
      | nil =>
        -- the last statement that is there stands for itself
        have hnone : anyPresent ts = false := by rw [hmore, hrest]; rfl
        rw [if_neg (by simp [hnone])]
        rw [hrest] at chain
        obtain rfl : i = j := chain
        exact hdenotes
      | cons k rest =>
        have hsome : anyPresent ts = true := by rw [hmore, hrest]; rfl
        rw [if_pos hsome]
        rw [hrest] at chain
        obtain ⟨l, hl, chain⟩ := chain
        exact ⟨j, l, hl, hdenotes, ih (by rw [hrest]; exact chain)⟩

theorem denotesAll_of_built {b b' : Builder} {ts : List Term} {roots : List (Option NodeId)}
    (h : List.Forall₂ (fun t root => Built t root b) ts roots) (grown : b.Extends b')
    (fits : b'.arena.size ≤ maxIndex) :
    DenotesAll b'.names b'.arena ts (roots.map .ofOption) := by
  induction h with
  | nil => rfl
  | cons ht _ ih => exact ⟨_, _, rfl, ht.denotes b' grown fits, ih⟩

theorem seq_built {b : Builder} (wf : b.names.WellFormed) {ts : List Term}
    {roots : List (Option NodeId)} (h : List.Forall₂ (fun t root => Built t root b) ts roots) :
    (Builder.seq roots).Gives b fun root b' =>
      root.isSome = anyPresent ts ∧
      b'.Always fun b'' => DenotesSeq b''.names b''.arena ts (.ofOption root) := by
  refine (Builder.seq_gives wf roots).mono fun root b₁ grown₁ hroot => ⟨?_, ?_⟩
  · rw [hroot.1, anyPresent_eq h]
  · intro b₂ grown₂ fits
    exact denotesSeq_of_chain h (grown₁.trans grown₂) fits (hroot.2 b₂ grown₂ fits)

/-- Storing one more node gives the tree that the node stands for. -/
theorem alloc_built {b : Builder} (wf : b.names.WellFormed) {t : Term} {node : Node}
    (here : t.isPresent = true)
    (h : ∀ id b', b.Extends b' → b'.arena.size ≤ maxIndex → b'.arena.Holds id node →
      t.Denotes b'.names b'.arena id) :
    Build.Gives (some <$> Builder.alloc node) b t.Built := by
  refine .map ((Builder.alloc_gives wf node).mono fun id b₁ grown₁ hid => ⟨here.symm, ?_⟩)
  exact fun b₂ grown₂ fits => h id b₂ (grown₁.trans grown₂) fits (hid b₂ grown₂ fits)

mutual

theorem build_gives (t : Term) {b : Builder} (wf : b.names.WellFormed) (fit : t.listsFit = true) :
    (t.build Empty.elim).Gives b t.Built := by
  match t with
  | .absent => exact .pure wf ⟨rfl, fun _ _ _ => rfl⟩
  | .int n => exact alloc_built wf rfl fun _ _ _ _ h => h
  | .bool n => exact alloc_built wf rfl fun _ _ _ _ h => h
  | .null => exact alloc_built wf rfl fun _ _ _ _ h => h
  | .ident x =>
    rw [build, Builder.ident, map_bind]
    refine (Builder.intern_gives wf x).bind fun y b₁ _ wf₁ hy => ?_
    exact alloc_built wf₁ rfl fun id b₂ grown fits h => ⟨y, hy b₂ grown fits, h⟩
  | .print e =>
    rw [build]
    refine (build_gives e wf fit).bind fun i b₁ _ wf₁ hi => ?_
    exact alloc_built wf₁ rfl fun id b₂ grown fits h => ⟨_, h, hi.denotes b₂ grown fits⟩
  | .binary token l r =>
    rw [listsFit, Bool.and_eq_true] at fit
    rw [build]
    refine (build_gives l wf fit.1).bind fun i b₁ _ wf₁ hi => ?_
    refine (build_gives r wf₁ fit.2).bind fun j b₂ grown₂ wf₂ hj => ?_
    unfold Builder.binarySymbol
    rw [Operator.ofSymbol?_eq_ofToken?]
    cases hop : Operator.ofToken? token with
    | none =>
      refine .pure wf₂ ⟨by simp [isPresent, hop], fun b₃ _ _ => ?_⟩
      simp [Denotes, hop, NodeId.ofOption]
    | some op =>
      refine alloc_built wf₂ (by simp [isPresent, hop]) fun id b₃ grown fits h => ?_
      simp only [Denotes, hop]
      exact ⟨_, _, h, hi.denotes b₃ (grown₂.trans grown) fits, hj.denotes b₃ grown fits⟩
  | .cond c t e =>
    rw [listsFit, Bool.and_eq_true, Bool.and_eq_true] at fit
    rw [build]
    refine (build_gives c wf fit.1.1).bind fun i b₁ _ wf₁ hi => ?_
    refine (build_gives t wf₁ fit.1.2).bind fun j b₂ grown₂ wf₂ hj => ?_
    refine (build_gives e wf₂ fit.2).bind fun k b₃ grown₃ wf₃ hk => ?_
    refine alloc_built wf₃ rfl fun id b₄ grown fits h => ⟨_, _, _, h, ?_, ?_, ?_⟩
    · exact hi.denotes b₄ ((grown₂.trans grown₃).trans grown) fits
    · exact hj.denotes b₄ (grown₃.trans grown) fits
    · exact hk.denotes b₄ grown fits
  | .loop c e =>
    rw [listsFit, Bool.and_eq_true] at fit
    rw [build]
    refine (build_gives c wf fit.1).bind fun i b₁ _ wf₁ hi => ?_
    refine (build_gives e wf₁ fit.2).bind fun j b₂ grown₂ wf₂ hj => ?_
    refine alloc_built wf₂ rfl fun id b₃ grown fits h => ⟨_, _, h, ?_, ?_⟩
    · exact hi.denotes b₃ (grown₂.trans grown) fits
    · exact hj.denotes b₃ grown fits
  | .pair x y =>
    rw [listsFit, Bool.and_eq_true] at fit
    rw [build]
    refine (build_gives x wf fit.1).bind fun i b₁ _ wf₁ hi => ?_
    refine (build_gives y wf₁ fit.2).bind fun j b₂ grown₂ wf₂ hj => ?_
    refine alloc_built wf₂ rfl fun id b₃ grown fits h => ⟨_, _, h, ?_, ?_⟩
    · exact hi.denotes b₃ (grown₂.trans grown) fits
    · exact hj.denotes b₃ grown fits
  | .seq ts =>
    rw [build]
    refine (buildAll_gives ts wf fit).bind fun roots b₁ _ wf₁ hroots => ?_
    exact (seq_built wf₁ hroots).mono fun root b₂ _ h => ⟨h.1, h.2⟩
  | .block ts =>
    rw [build]
    refine (buildAll_gives ts wf fit).bind fun roots b₁ _ wf₁ hroots => ?_
    exact (seq_built wf₁ hroots).mono fun root b₂ _ h => ⟨h.1, h.2⟩
  | .scopedBlock ts =>
    rw [build]
    refine (buildAll_gives ts wf fit).bind fun roots b₁ _ wf₁ hroots => ?_
    refine (seq_built wf₁ hroots).bind fun root b₂ _ wf₂ hroot => ?_
    cases root with
    | none =>
      have hnone : anyPresent ts = false := hroot.1.symm
      refine .pure wf₂ ⟨by simp [isPresent, hnone], fun b₃ _ _ => ?_⟩
      simp [Denotes, hnone, NodeId.ofOption]
    | some i =>
      have hsome : anyPresent ts = true := hroot.1.symm
      refine alloc_built wf₂ (by simp [isPresent, hsome]) fun id b₃ grown fits h => ?_
      rw [Denotes, if_pos hsome]
      exact ⟨i, h, hroot.2 b₃ grown fits⟩
  | .declare x e =>
    rw [build]
    refine (build_gives e wf fit).bind fun i b₁ _ wf₁ hi => ?_
    rw [Builder.declare, map_bind]
    refine (Builder.intern_gives wf₁ x).bind fun y b₂ grown₂ wf₂ hy => ?_
    refine alloc_built wf₂ rfl fun id b₃ grown fits h => ⟨y, _, hy b₃ grown fits, h, ?_⟩
    exact hi.denotes b₃ (grown₂.trans grown) fits
  | .assign x e =>
    rw [build]
    refine (build_gives e wf fit).bind fun i b₁ _ wf₁ hi => ?_
    rw [Builder.assign, map_bind]
    refine (Builder.intern_gives wf₁ x).bind fun y b₂ grown₂ wf₂ hy => ?_
    refine alloc_built wf₂ rfl fun id b₃ grown fits h => ⟨y, _, hy b₃ grown fits, h, ?_⟩
    exact hi.denotes b₃ (grown₂.trans grown) fits
  | .function params e =>
    rw [listsFit, Bool.and_eq_true, decide_eq_true_eq] at fit
    rw [build]
    refine (build_gives e wf fit.2).bind fun i b₁ _ wf₁ hi => ?_
    rw [Builder.function, map_bind]
    refine (Builder.internAll_gives wf₁ params).bind fun ys b₂ grown₂ wf₂ hys => ?_
    have hlength : ys.length ≤ maxListLength := by
      rw [hys.1]
      exact fit.1
    rw [map_bind]
    refine (Builder.allocParameters_gives wf₂ hlength).bind fun span b₃ grown₃ wf₃ hspan => ?_
    refine alloc_built wf₃ rfl fun id b₄ grown fits h =>
      ⟨span, ys, _, h, hspan b₄ grown fits, hys.2 b₄ (grown₃.trans grown) fits, ?_⟩
    exact hi.denotes b₄ ((grown₂.trans grown₃).trans grown) fits
  | .call f args =>
    rw [listsFit, Bool.and_eq_true, Bool.and_eq_true, decide_eq_true_eq] at fit
    rw [build]
    refine (build_gives f wf fit.1.2).bind fun i b₁ _ wf₁ hi => ?_
    refine (buildAll_gives args wf₁ fit.2).bind fun roots b₂ grown₂ wf₂ hroots => ?_
    have hlength : (roots.map NodeId.ofOption).length ≤ maxListLength := by
      rw [List.length_map, ← hroots.length_eq]
      exact fit.1.1
    rw [Builder.call, map_bind]
    refine (Builder.allocArguments_gives wf₂ hlength).bind fun span b₃ grown₃ wf₃ hspan => ?_
    refine alloc_built wf₃ rfl fun id b₄ grown fits h =>
      ⟨_, span, _, h, ?_, hspan b₄ grown fits, ?_⟩
    · exact hi.denotes b₄ ((grown₂.trans grown₃).trans grown) fits
    · exact denotesAll_of_built hroots (grown₃.trans grown) fits

theorem buildAll_gives (ts : List Term) {b : Builder} (wf : b.names.WellFormed)
    (fit : allListsFit ts = true) :
    (buildAll Empty.elim ts).Gives b fun roots b' =>
      List.Forall₂ (fun t root => Built t root b') ts roots := by
  match ts with
  | [] => exact .pure wf .nil
  | t :: ts =>
    rw [allListsFit, Bool.and_eq_true] at fit
    rw [buildAll]
    refine (build_gives t wf fit.1).bind fun root b₁ _ wf₁ hroot => ?_
    refine (buildAll_gives ts wf₁ fit.2).bind fun roots b₂ grown₂ wf₂ hroots => ?_
    exact .pure wf₂ (.cons (hroot.later grown₂) hroots)

end

mutual

/-- A tree with a list that is too long cannot be built. -/
theorem build_ensures (t : Term) : (t.build Empty.elim).Ensures fun _ => t.listsFit = true := by
  match t with
  | .absent | .int _ | .bool _ | .null | .ident _ => exact .of_forall fun _ => rfl
  | .print e | .declare _ e | .assign _ e =>
    rw [build]
    exact (build_ensures e).bind fun _ he => .of_forall fun _ => he
  | .binary _ x y | .loop x y | .pair x y =>
    rw [build]
    refine (build_ensures x).bind fun _ hx => (build_ensures y).bind fun _ hy => ?_
    exact .of_forall fun _ => by rw [listsFit, hx, hy]; rfl
  | .cond c t e =>
    rw [build]
    refine (build_ensures c).bind fun _ hc => (build_ensures t).bind fun _ ht => ?_
    refine (build_ensures e).bind fun _ he => .of_forall fun _ => ?_
    rw [listsFit, hc, ht, he]
    rfl
  | .seq ts | .block ts | .scopedBlock ts =>
    rw [build]
    exact (buildAll_ensures ts).bind fun _ hts => .of_forall fun _ => hts.2
  | .function params e =>
    rw [build]
    refine (build_ensures e).bind fun _ he => ?_
    rw [Builder.function, map_bind]
    refine (Builder.internAll_ensures params).bind fun xs hxs => ?_
    rw [map_bind]
    refine (Builder.allocParameters_ensures xs).bind fun _ short => .of_forall fun _ => ?_
    rw [hxs] at short
    rw [listsFit, he, decide_eq_true short]
    rfl
  | .call f args =>
    rw [build]
    refine (build_ensures f).bind fun _ hf => (buildAll_ensures args).bind fun roots hargs => ?_
    rw [Builder.call, map_bind]
    refine (Builder.allocArguments_ensures _).bind fun _ short => .of_forall fun _ => ?_
    rw [List.length_map, hargs.1] at short
    rw [listsFit, hf, hargs.2, decide_eq_true short]
    rfl

theorem buildAll_ensures (ts : List Term) :
    (buildAll Empty.elim ts).Ensures fun roots =>
      roots.length = ts.length ∧ allListsFit ts = true := by
  match ts with
  | [] => exact .pure ⟨rfl, rfl⟩
  | t :: ts =>
    rw [buildAll]
    refine (build_ensures t).bind fun _ ht => (buildAll_ensures ts).bind fun _ hts => .pure ⟨?_, ?_⟩
    · rw [List.length_cons, List.length_cons, hts.1]
    · rw [allListsFit, ht, hts.2]
      rfl

end

/-- A program stands for the list of its statements. -/
theorem buildProgram_gives {b : Builder} (wf : b.names.WellFormed) {trees : List Term}
    (fit : allListsFit trees = true) :
    (buildProgram Empty.elim trees).Gives b (Tree.seq trees).Built :=
  build_gives (.seq trees) wf fit

/-- A program that was built stands for its trees, and the tables have kept all they held. -/
theorem extends_of_buildProgram {b b' : Builder} (wf : b.names.WellFormed) {trees : List Term}
    {root : Option NodeId} (h : buildProgram Empty.elim trees b = .ok root b') :
    b.Extends b' ∧ b'.names.WellFormed ∧ (Tree.seq trees).Built root b' := by
  have fit : allListsFit trees = true := build_ensures (.seq trees) b root b' h
  have built := buildProgram_gives wf fit
  unfold Build.Gives at built
  rwa [h] at built

/-- What a program that was built stands for. -/
theorem built_of_buildProgram {b b' : Builder} (wf : b.names.WellFormed) {trees : List Term}
    {root : Option NodeId} (h : buildProgram Empty.elim trees b = .ok root b') :
    b'.names.WellFormed ∧ (Tree.seq trees).Built root b' :=
  (extends_of_buildProgram wf h).2

end Treewalk.Tree
