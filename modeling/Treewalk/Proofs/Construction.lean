import Mathlib.Data.List.Forall2
import Treewalk.Builder

/-! What a step of construction gives: either the tables grow and keep all they held, or some table
has no room left. Facts about stored nodes, lists and names are stated of a builder and of all that
grow out of it, so that they need no proof again after later steps. -/

namespace Treewalk

/-- A number other than the absent one under which a node is stored. -/
structure Arena.Holds (a : Arena) (id : NodeId) (node : Node) : Prop where
  present : id.isPresent = true
  stored : a.node? id = some node

/-- The two tables of an interner are inverse to each other. -/
def Interner.WellFormed (t : Interner) : Prop := ∀ s x, t.find? s = some x ↔ t.get? x = some s

namespace Interner

theorem WellFormed.get?_inj {t : Interner} (wf : t.WellFormed) {x y : Name} {s : String}
    (hx : t.get? x = some s) (hy : t.get? y = some s) : x = y := by
  rw [← wf] at hx hy
  exact Option.some.inj (hx.symm.trans hy)

theorem lookup_of_get? {t : Interner} {x : Name} {p : String}
    (h : t.get? x = some p) : t.lookup x = p := by
  rw [lookup, h, Option.getD_some]

theorem wellFormed_initial : initial.WellFormed := by
  intro s x
  have hfind : initial.find? s = if "" = s then some Name.empty else none := by
    simp [initial, find?, Std.HashMap.getElem?_insert]
  have hget : initial.get? x = if x.index = 0 then some "" else none := by
    cases h : x.index <;> simp [initial, get?, h]
  rw [hfind, hget]
  by_cases hx : x.index = 0
  · obtain rfl : x = Name.empty := Name.index_injective hx
    by_cases hs : "" = s <;> simp [hs]
  · have hne : Name.empty ≠ x := by
      rintro rfl
      exact hx rfl
    by_cases hs : "" = s <;> simp [hs, hx, hne]

theorem get?_push_of_get? {t : Interner} {x : Name} {u : String} (s : String)
    (h : t.get? x = some u) : (t.push s).get? x = some u := by
  have hlt : x.index < t.strings.size := (Array.getElem?_eq_some_iff.mp h).1
  simp only [get?, push] at h ⊢
  rw [Array.getElem?_push_lt hlt, ← Array.getElem?_eq_getElem hlt, h]

theorem index_ofNat_size {t : Interner} (room : t.size ≤ maxIndex) :
    (⟨.ofNat t.size⟩ : Name).index = t.strings.size := by
  simp only [Name.index, size] at room ⊢
  exact toNat_ofNat_index room

theorem get?_push_size {t : Interner} (s : String) (room : t.size ≤ maxIndex) :
    (t.push s).get? ⟨.ofNat t.size⟩ = some s := by
  rw [get?, index_ofNat_size room]
  simp [push]

theorem wellFormed_push {t : Interner} (wf : t.WellFormed) {s : String} (new : t.find? s = none)
    (room : t.size ≤ maxIndex) : (t.push s).WellFormed := by
  intro u x
  rw [find?_push]
  by_cases hs : s = u
  · subst hs
    rw [if_pos rfl]
    constructor
    · intro h
      obtain rfl := Option.some.inj h
      exact get?_push_size s room
    · intro h
      rcases Nat.lt_trichotomy x.index t.strings.size with hlt | heq | hgt
      · -- an older position would be the name that `s` does not have
        have hold : t.get? x = some s := by
          rwa [get?, push, Array.getElem?_push_lt hlt, ← Array.getElem?_eq_getElem hlt] at h
        rw [(wf s x).mpr hold] at new
        cases new
      · rw [← index_ofNat_size room] at heq
        rw [Name.index_injective heq]
      · rw [get?, push, Array.getElem?_eq_none (by simp; omega)] at h
        cases h
  · rw [if_neg hs, wf u x]
    refine ⟨get?_push_of_get? s, fun h => ?_⟩
    by_cases hlt : x.index < t.strings.size
    · rwa [get?, push, Array.getElem?_push_lt hlt, ← Array.getElem?_eq_getElem hlt] at h
    · rw [get?, push, Array.getElem?_push] at h
      split at h
      · exact absurd (Option.some.inj h) hs
      · rw [Array.getElem?_eq_none (by omega)] at h
        cases h

/-- The names of `t` stand for the same strings in `t'`. -/
def Keeps (t t' : Interner) : Prop := ∀ x p, t.get? x = some p → t'.get? x = some p

theorem Keeps.refl (t : Interner) : t.Keeps t := fun _ _ h => h

theorem Keeps.trans {t t' t'' : Interner} (h : t.Keeps t') (h' : t'.Keeps t'') : t.Keeps t'' :=
  fun x p hx => h' x p (h x p hx)

/-- Interning a string keeps the names that there are and gives the string one. -/
theorem intern_keeps {t t' : Interner} (wf : t.WellFormed) {s : String} {x : Name}
    (h : intern s t = .ok x t') : t'.WellFormed ∧ t.Keeps t' ∧ t'.get? x = some s := by
  cases hs : t.find? s with
  | some y =>
    cases (intern_of_find?_eq_some hs).symm.trans h
    exact ⟨wf, .refl _, (wf s _).mp hs⟩
  | none =>
    by_cases room : t.size ≤ maxIndex
    · cases (intern_of_find?_eq_none hs room).symm.trans h
      exact ⟨wellFormed_push wf hs room, fun y p hy => get?_push_of_get? s hy,
        get?_push_size s room⟩
    · simp [intern, hs, room] at h

/-- Interning fails only if there is no room left. -/
theorem intern_full {t t' : Interner} {s : String} {r : Refusal} (h : intern s t = .error r t') :
    r = .strings t.size ∧ maxIndex < t.size := by
  cases hs : t.find? s with
  | some x => cases (intern_of_find?_eq_some hs).symm.trans h
  | none =>
    by_cases room : t.size ≤ maxIndex
    · cases (intern_of_find?_eq_none hs room).symm.trans h
    · simp only [intern, hs, room, if_false] at h
      cases h
      exact ⟨rfl, Nat.lt_of_not_le room⟩

/-- The empty string is known from the start. -/
theorem intern_empty : intern "" initial = .ok .empty initial :=
  intern_of_find?_eq_some ((wellFormed_initial "" .empty).mpr rfl)

end Interner

namespace Span

variable {α : Type} {s : Span} {table : Array α} {entries : List α}

theorem size_append_list (table : Array α) (more : List α) :
    (table ++ more).size = table.size + more.length := by
  rw [← Array.length_toList, Array.toList_appendList, List.length_append, Array.length_toList]

theorem slice?_append (more : List α) (h : s.slice? table = some entries) :
    s.slice? (table ++ more) = some entries := by
  unfold slice? at h ⊢
  split at h
  next inside =>
    have hstart : s.start.toNat ≤ table.toList.length := by
      rw [Array.length_toList]
      exact Nat.le_trans (Nat.le_add_right _ _) inside
    have hstop : s.stop - s.start.toNat ≤ (table.toList.drop s.start.toNat).length := by
      rw [List.length_drop, Array.length_toList]
      omega
    rw [if_pos (by rw [size_append_list]; omega), ← Option.some.inj h]
    simp only [Array.toList_extract, List.extract_eq_take_drop, Array.toList_appendList]
    rw [List.drop_append_of_le_length hstart, List.take_append_of_le_length hstop]
  next => cases h

theorem slice?_of_append (room : table.size ≤ maxIndex)
    (short : entries.length ≤ maxListLength) :
    slice? ⟨.ofNat table.size, .ofNat entries.length⟩ (table ++ entries) = some entries := by
  have hstart : (UInt32.ofNat table.size).toNat = table.size := toNat_ofNat_index room
  have hlen : (UInt16.ofNat entries.length).toNat = entries.length :=
    toNat_ofNat_listLength short
  simp [slice?, stop, hstart, hlen, size_append_list]

end Span

/-- The refusal says that a table has no room for one more entry. -/
def Refusal.TableFull : Refusal → Prop
  | strings n | nodes n | argumentEntries n | parameterEntries n => maxIndex < n
  | arguments _ | parameters _ => False

/-- Whatever `a` holds, `a'` holds under the same numbers and spans. -/
structure Arena.KeptIn (a a' : Arena) : Prop where
  nodes : ∀ id node, a.node? id = some node → a'.node? id = some node
  arguments : ∀ s ids, a.arguments? s = some ids → a'.arguments? s = some ids
  parameters : ∀ s xs, a.parameters? s = some xs → a'.parameters? s = some xs

namespace Arena.KeptIn

theorem refl (a : Arena) : a.KeptIn a := ⟨fun _ _ h => h, fun _ _ h => h, fun _ _ h => h⟩

theorem trans {a₁ a₂ a₃ : Arena} (h : a₁.KeptIn a₂) (h' : a₂.KeptIn a₃) : a₁.KeptIn a₃ where
  nodes id node hn := h'.nodes id node (h.nodes id node hn)
  arguments s ids hs := h'.arguments s ids (h.arguments s ids hs)
  parameters s xs hs := h'.parameters s xs (h.parameters s xs hs)

theorem push (a : Arena) (node : Node) : a.KeptIn { a with nodes := a.nodes.push node } := by
  refine ⟨fun id n hn => ?_, fun _ _ h => h, fun _ _ h => h⟩
  simp only [Arena.node?] at hn ⊢
  rw [Array.getElem?_push_lt (Array.getElem?_eq_some_iff.mp hn).1, ← Array.getElem?_eq_getElem, hn]

end Arena.KeptIn

/-- Whatever `b` holds, `b'` holds under the same numbers, spans and names. -/
structure Builder.Extends (b b' : Builder) : Prop where
  size : b.arena.size ≤ b'.arena.size
  nodes : ∀ id node, b.arena.node? id = some node → b'.arena.node? id = some node
  arguments : ∀ s ids, b.arena.arguments? s = some ids → b'.arena.arguments? s = some ids
  parameters : ∀ s xs, b.arena.parameters? s = some xs → b'.arena.parameters? s = some xs
  names : ∀ x s, b.names.get? x = some s → b'.names.get? x = some s

namespace Builder.Extends

theorem refl (b : Builder) : b.Extends b :=
  ⟨Nat.le_refl _, fun _ _ h => h, fun _ _ h => h, fun _ _ h => h, fun _ _ h => h⟩

theorem trans {b₁ b₂ b₃ : Builder} (h : b₁.Extends b₂) (h' : b₂.Extends b₃) : b₁.Extends b₃ where
  size := Nat.le_trans h.size h'.size
  nodes id node hn := h'.nodes id node (h.nodes id node hn)
  arguments s ids hs := h'.arguments s ids (h.arguments s ids hs)
  parameters s xs hs := h'.parameters s xs (h.parameters s xs hs)
  names x s hx := h'.names x s (h.names x s hx)

theorem keptIn {b b' : Builder} (h : b.Extends b') : b.arena.KeptIn b'.arena :=
  ⟨h.nodes, h.arguments, h.parameters⟩

end Builder.Extends

/-- `P` holds of every builder that grows out of `b` and whose nodes have numbers of their own: a
table of `2^32` nodes would end in one whose number stands for no node. -/
def Builder.Always (b : Builder) (P : Builder → Prop) : Prop :=
  ∀ b', b.Extends b' → b'.arena.size ≤ maxIndex → P b'

theorem Builder.Always.later {b b' : Builder} {P : Builder → Prop} (h : b.Always P)
    (grown : b.Extends b') : b'.Always P :=
  fun b'' grown' fits => h b'' (grown.trans grown') fits

/-- From `b` the step `m` gives a result with `Q`, or a table is full. -/
def Build.Gives {α : Type} (m : Build α) (b : Builder) (Q : α → Builder → Prop) : Prop :=
  match m b with
  | .ok a b' => b.Extends b' ∧ b'.names.WellFormed ∧ Q a b'
  | .error r _ => r.TableFull

namespace Build.Gives

variable {α β : Type} {m : Build α} {b : Builder} {Q Q' : α → Builder → Prop}
  {R : β → Builder → Prop}

theorem of_ok {a : α} {b' : Builder} (h : m b = .ok a b') (grown : b.Extends b')
    (wf : b'.names.WellFormed) (hQ : Q a b') : m.Gives b Q := by
  unfold Build.Gives
  rw [h]
  exact ⟨grown, wf, hQ⟩

theorem of_full {r : Refusal} {b' : Builder} (h : m b = .error r b') (full : r.TableFull) :
    m.Gives b Q := by
  unfold Build.Gives
  rw [h]
  exact full

theorem pure {a : α} (wf : b.names.WellFormed) (h : Q a b) : Build.Gives (pure a) b Q :=
  ⟨.refl b, wf, h⟩

theorem bind {f : α → Build β} (h : m.Gives b Q)
    (hf : ∀ a b', b.Extends b' → b'.names.WellFormed → Q a b' → (f a).Gives b' R) :
    Build.Gives (m >>= f) b R := by
  unfold Build.Gives at h ⊢
  simp only [Bind.bind, EStateM.bind]
  cases hm : m b with
  | ok a b' =>
    rw [hm] at h
    obtain ⟨grown, wf, hQ⟩ := h
    have hf := hf a b' grown wf hQ
    unfold Build.Gives at hf
    simp only
    cases hfa : f a b' with
    | ok c b'' =>
      rw [hfa] at hf
      exact ⟨grown.trans hf.1, hf.2⟩
    | error r b'' =>
      rw [hfa] at hf
      exact hf
  | error r b' =>
    rw [hm] at h
    exact h

theorem mono (h : m.Gives b Q) (hQ : ∀ a b', b.Extends b' → Q a b' → Q' a b') :
    m.Gives b Q' := by
  unfold Build.Gives at h ⊢
  cases hm : m b with
  | ok a b' =>
    rw [hm] at h
    exact ⟨h.1, h.2.1, hQ a b' h.1 h.2.2⟩
  | error r b' =>
    rw [hm] at h
    exact h

theorem map {f : α → β} (h : m.Gives b fun a b' => R (f a) b') : Build.Gives (f <$> m) b R := by
  rw [map_eq_pure_bind]
  exact h.bind fun a b' _ wf hQ => pure wf hQ

end Build.Gives

/-- Whatever the step gives has `Q`. -/
def Build.Ensures {α : Type} (m : Build α) (Q : α → Prop) : Prop :=
  ∀ b a b', m b = .ok a b' → Q a

namespace Build.Ensures

variable {α β : Type} {m : Build α} {Q : α → Prop} {R : β → Prop}

theorem of_forall (h : ∀ a, Q a) : m.Ensures Q := fun _ a _ _ => h a

theorem pure {a : α} (h : Q a) : Build.Ensures (pure a) Q := by
  intro b a' b' hrun
  cases hrun
  exact h

theorem bind {f : α → Build β} (h : m.Ensures Q) (hf : ∀ a, Q a → (f a).Ensures R) :
    Build.Ensures (m >>= f) R := by
  intro b c b' hrun
  simp only [Bind.bind, EStateM.bind] at hrun
  cases hm : m b with
  | ok a b₁ =>
    rw [hm] at hrun
    exact hf a (h b a b₁ hm) b₁ c b' hrun
  | error r b₁ =>
    rw [hm] at hrun
    cases hrun

end Build.Ensures

namespace Builder

variable {b : Builder}

theorem intern_gives (wf : b.names.WellFormed) (s : String) :
    (intern s).Gives b fun x b' => b'.Always fun b'' => b''.names.get? x = some s := by
  cases hrun : Interner.intern s b.names with
  | ok x names =>
    obtain ⟨wf', keeps, hx⟩ := Interner.intern_keeps wf hrun
    have step : intern s b = .ok x ⟨names, b.arena⟩ := by simp only [intern, onNames, hrun]
    exact .of_ok step ⟨Nat.le_refl _, fun _ _ h => h, fun _ _ h => h, fun _ _ h => h, keeps⟩ wf'
      fun b' grown _ => grown.names x s hx
  | error r names =>
    obtain ⟨rfl, full⟩ := Interner.intern_full hrun
    have step : intern s b = .error (.strings b.names.size) ⟨names, b.arena⟩ := by
      simp only [intern, onNames, hrun]
    exact .of_full step full

theorem intern_empty (a : Arena) : intern "" ⟨.initial, a⟩ = .ok .empty ⟨.initial, a⟩ := by
  simp only [intern, onNames, Interner.intern_empty]

/-- The number under which the next node is stored. -/
theorem index_next (room : b.arena.size ≤ maxIndex) :
    (⟨.ofNat b.arena.size⟩ : NodeId).index = b.arena.size :=
  toNat_ofNat_index room

theorem alloc_of_le (node : Node) (room : b.arena.size ≤ maxIndex) :
    alloc node b = .ok ⟨.ofNat b.arena.size⟩
      { b with arena := { b.arena with nodes := b.arena.nodes.push node } } := by
  simp only [alloc, onArena, Arena.allocNode_of_le node room]

theorem alloc_of_lt (node : Node) (full : maxIndex < b.arena.size) :
    alloc node b = .error (.nodes b.arena.size) b := by
  have room : ¬ b.arena.nodes.size ≤ maxIndex := Nat.not_le_of_lt full
  simp only [alloc, onArena, Arena.allocNode, if_neg room]
  rfl

/-- A new node is there in every arena that keeps it, unless it took the number that marks absent
ones. -/
theorem holds_next (node : Node) (room : b.arena.size < maxIndex) {a : Arena}
    (kept : Arena.KeptIn { b.arena with nodes := b.arena.nodes.push node } a) :
    a.Holds ⟨.ofNat b.arena.size⟩ node := by
  have hindex := index_next (Nat.le_of_lt room)
  refine ⟨?_, kept.nodes _ _ ?_⟩
  · rw [NodeId.isPresent_iff]
    intro habsent
    have hlast : NodeId.absent.index = maxIndex := rfl
    rw [habsent] at hindex
    omega
  · rw [Arena.node?, hindex]
    exact Array.getElem?_push_size

theorem alloc_gives (wf : b.names.WellFormed) (node : Node) :
    (alloc node).Gives b fun id b' => b'.Always fun b'' => b''.arena.Holds id node := by
  by_cases room : b.arena.size ≤ maxIndex
  · have kept := Arena.KeptIn.push b.arena node
    refine .of_ok (alloc_of_le node room) ⟨by simp [Arena.size], kept.nodes, kept.arguments,
      kept.parameters, fun _ _ h => h⟩ wf fun b' grown fits => holds_next node ?_ grown.keptIn
    have hsize := grown.size
    simp only [Arena.size, Array.size_push] at hsize fits ⊢
    omega
  · exact .of_full (alloc_of_lt node (Nat.lt_of_not_le room)) (Nat.lt_of_not_le room)

theorem allocArguments_gives (wf : b.names.WellFormed) {ids : List NodeId}
    (short : ids.length ≤ maxListLength) :
    (onArena (Arena.allocArguments ids)).Gives b fun span b' =>
      b'.Always fun b'' => b''.arena.arguments? span = some ids := by
  by_cases room : b.arena.arguments.size ≤ maxIndex
  · have step : onArena (Arena.allocArguments ids) b =
        .ok ⟨.ofNat b.arena.arguments.size, .ofNat ids.length⟩
          { b with arena := { b.arena with arguments := b.arena.arguments ++ ids } } := by
      simp [onArena, Arena.allocArguments, Span.append_of_le room short]
    exact .of_ok step ⟨Nat.le_refl _, fun _ _ h => h, fun _ _ h => Span.slice?_append ids h,
      fun _ _ h => h, fun _ _ h => h⟩ wf fun b' grown _ =>
        grown.arguments _ _ (Span.slice?_of_append room short)
  · have step : onArena (Arena.allocArguments ids) b =
        .error (.argumentEntries b.arena.arguments.size) b := by
      simp [onArena, Arena.allocArguments, Span.append, room]
    exact .of_full step (Nat.lt_of_not_le room)

theorem allocParameters_gives (wf : b.names.WellFormed) {xs : List Name}
    (short : xs.length ≤ maxListLength) :
    (onArena (Arena.allocParameters xs)).Gives b fun span b' =>
      b'.Always fun b'' => b''.arena.parameters? span = some xs := by
  by_cases room : b.arena.parameters.size ≤ maxIndex
  · have step : onArena (Arena.allocParameters xs) b =
        .ok ⟨.ofNat b.arena.parameters.size, .ofNat xs.length⟩
          { b with arena := { b.arena with parameters := b.arena.parameters ++ xs } } := by
      simp [onArena, Arena.allocParameters, Span.append_of_le room short]
    exact .of_ok step ⟨Nat.le_refl _, fun _ _ h => h, fun _ _ h => h,
      fun _ _ h => Span.slice?_append xs h, fun _ _ h => h⟩ wf fun b' grown _ =>
        grown.parameters _ _ (Span.slice?_of_append room short)
  · have step : onArena (Arena.allocParameters xs) b =
        .error (.parameterEntries b.arena.parameters.size) b := by
      simp [onArena, Arena.allocParameters, Span.append, room]
    exact .of_full step (Nat.lt_of_not_le room)

/-- A list of arguments that was stored is not too long. -/
theorem allocArguments_ensures (ids : List NodeId) :
    (onArena (Arena.allocArguments ids)).Ensures fun _ => ids.length ≤ maxListLength := by
  intro b span b' hrun
  by_contra long
  simp only [onArena, Arena.allocArguments, Span.append, long] at hrun
  by_cases room : b.arena.arguments.size ≤ maxIndex <;> simp [room] at hrun

theorem allocParameters_ensures (xs : List Name) :
    (onArena (Arena.allocParameters xs)).Ensures fun _ => xs.length ≤ maxListLength := by
  intro b span b' hrun
  by_contra long
  simp only [onArena, Arena.allocParameters, Span.append, long] at hrun
  by_cases room : b.arena.parameters.size ≤ maxIndex <;> simp [room] at hrun

theorem internAll_ensures (params : List String) :
    (params.mapM intern).Ensures fun xs => xs.length = params.length := by
  induction params with
  | nil => exact .pure rfl
  | cons p params ih =>
    rw [List.mapM_cons]
    refine (Build.Ensures.of_forall fun _ => trivial).bind fun x _ => ?_
    refine ih.bind fun xs hxs => .pure ?_
    rw [List.length_cons, List.length_cons, hxs]

theorem internAll_gives (wf : b.names.WellFormed) (params : List String) :
    (params.mapM intern).Gives b fun xs b' =>
      xs.length = params.length ∧
      b'.Always fun b'' => List.Forall₂ (fun x p => b''.names.get? x = some p) xs params := by
  induction params generalizing b with
  | nil => exact .pure wf ⟨rfl, fun _ _ _ => .nil⟩
  | cons p params ih =>
    rw [List.mapM_cons]
    refine (intern_gives wf p).bind fun x b₁ _ wf₁ hx => ?_
    refine (ih wf₁).bind fun xs b₂ grown₂ wf₂ hxs => .pure wf₂ ⟨?_, fun b₃ grown₃ fits => ?_⟩
    · rw [List.length_cons, List.length_cons, hxs.1]
    · exact .cons (hx b₃ (grown₂.trans grown₃) fits) (hxs.2 b₃ grown₃ fits)

end Builder

/-! ### Lists of statements -/

/-- The number `id` stands for the statements `ids` in their order. -/
def Arena.Chain (a : Arena) : List NodeId → NodeId → Prop
  | [], id => id = .absent
  | [i], id => id = i
  | i :: j :: rest, id => ∃ k, a.Holds id (.seq i k) ∧ a.Chain (j :: rest) k

/-- The builder `b'` has `n` nodes more than `b`, after those of `b`, and is otherwise as `b`. -/
structure Builder.Appended (b : Builder) (n : Nat) (b' : Builder) : Prop where
  size : b'.arena.size = b.arena.size + n
  kept : b.arena.KeptIn b'.arena
  arguments : b'.arena.arguments = b.arena.arguments
  parameters : b'.arena.parameters = b.arena.parameters
  names : b'.names = b.names

namespace Builder

variable {b : Builder}

theorem Appended.refl (b : Builder) : b.Appended 0 b := ⟨rfl, .refl _, rfl, rfl, rfl⟩

theorem Appended.push (node : Node) {n : Nat} {b' : Builder}
    (h : Appended { b with arena := { b.arena with nodes := b.arena.nodes.push node } } n b') :
    b.Appended (n + 1) b' := by
  refine ⟨?_, (Arena.KeptIn.push b.arena node).trans h.kept, h.arguments, h.parameters, h.names⟩
  rw [h.size]
  simp only [Arena.size, Array.size_push]
  omega

theorem Appended.extends {n : Nat} {b' : Builder} (h : b.Appended n b') : b.Extends b' := by
  refine ⟨by rw [h.size]; omega, h.kept.nodes, h.kept.arguments, h.kept.parameters, ?_⟩
  rw [h.names]
  exact fun _ _ h => h

/-- Statements are put in front of a tail one node at a time, until there is no room left. What they
stand for needs every new node to have another number than the one that marks absent ones. -/
theorem seqBefore_run (earlier : List NodeId) (second : NodeId) (b : Builder) :
    (∃ r b', seqBefore second earlier b = .error r b' ∧ r.TableFull ∧
      maxIndex + 1 < b.arena.size + earlier.length) ∨
    ∃ id b', seqBefore second earlier b = .ok id b' ∧ b.Appended earlier.length b' ∧
      ∀ a i rest, (earlier ≠ [] → b'.arena.size ≤ maxIndex) → b'.arena.KeptIn a →
        a.Chain (i :: rest) second → a.Chain (earlier.reverse ++ i :: rest) id := by
  induction earlier generalizing second b with
  | nil => exact .inr ⟨second, b, rfl, .refl b, fun _ _ _ _ _ h => h⟩
  | cons first earlier ih =>
    by_cases room : b.arena.size ≤ maxIndex
    · have hstep := alloc_of_le (.seq first second) room
      have hrun : seqBefore second (first :: earlier) b = seqBefore ⟨.ofNat b.arena.size⟩ earlier
          { b with arena := { b.arena with nodes := b.arena.nodes.push (.seq first second) } } := by
        simp only [seqBefore, seqPair, Bind.bind, EStateM.bind, hstep]
      rw [hrun]
      rcases ih ⟨.ofNat b.arena.size⟩ _ with
        ⟨r, b', herror, full, hsize⟩ | ⟨id, b', hok, app, chain⟩
      · refine .inl ⟨r, b', herror, full, ?_⟩
        simp only [Arena.size, Array.size_push, List.length_cons] at hsize ⊢
        omega
      · refine .inr ⟨id, b', hok, .push _ app, fun a i rest fits kept hrest => ?_⟩
        have hfits := fits (List.cons_ne_nil _ _)
        have hlt : b.arena.size < maxIndex := by
          have hsize := (Appended.push _ app).size
          omega
        have hfirst := holds_next (.seq first second) hlt (app.kept.trans kept)
        simpa using chain a first (i :: rest) (fun _ => hfits) kept ⟨second, hfirst, hrest⟩
    · have full := Nat.lt_of_not_le room
      refine .inl ⟨.nodes b.arena.size, b, ?_, full, ?_⟩
      · simp only [seqBefore, seqPair, Bind.bind, EStateM.bind, alloc_of_lt _ full]
      · rw [List.length_cons]
        omega

theorem any_isSome_eq (statements : List (Option NodeId)) :
    statements.any Option.isSome = !(statements.filterMap id).isEmpty := by
  induction statements with
  | nil => rfl
  | cons s statements ih => cases s <;> simp [ih]

/-- A list of statements becomes a chain of those that are there, with a node for each of them but
one, unless there is no room for these nodes. -/
theorem seq_run (statements : List (Option NodeId)) (b : Builder) :
    (∃ r b', seq statements b = .error r b' ∧ r.TableFull ∧
      maxIndex + 1 < b.arena.size + ((statements.filterMap id).length - 1)) ∨
    ∃ root b', seq statements b = .ok root b' ∧ root.isSome = statements.any Option.isSome ∧
      b.Appended ((statements.filterMap id).length - 1) b' ∧
      ∀ a, (1 < (statements.filterMap id).length → b'.arena.size ≤ maxIndex) →
        b'.arena.KeptIn a → a.Chain (statements.filterMap id) (.ofOption root) := by
  rw [any_isSome_eq]
  cases hrev : (statements.filterMap id).reverse with
  | nil =>
    have hrun : seq statements = pure none := by simp only [seq, hrev]
    have hnil : statements.filterMap id = [] := by simpa using hrev
    rw [hrun, hnil]
    exact .inr ⟨none, b, rfl, rfl, .refl b, fun _ _ _ => rfl⟩
  | cons last earlier =>
    have hrun : seq statements = some <$> seqBefore last earlier := by simp only [seq, hrev]
    have hids : statements.filterMap id = earlier.reverse ++ [last] := by
      rw [← List.reverse_reverse (statements.filterMap id), hrev, List.reverse_cons]
    have hlength : (earlier.reverse ++ [last]).length - 1 = earlier.length := by simp
    rw [hrun, hids, hlength]
    rcases seqBefore_run earlier last b with ⟨r, b', herror, full⟩ | ⟨id, b', hok, app, chain⟩
    · refine .inl ⟨r, b', ?_, full⟩
      simp only [Functor.map, EStateM.map, herror]
    · refine .inr ⟨some id, b', ?_, by simp, app, fun a fits kept => ?_⟩
      · simp only [Functor.map, EStateM.map, hok]
      · refine chain a last [] (fun more => fits ?_) kept rfl
        have hpos := List.length_pos_iff.mpr more
        simp only [List.length_append, List.length_reverse, List.length_singleton]
        omega

theorem seq_gives (wf : b.names.WellFormed) (statements : List (Option NodeId)) :
    (seq statements).Gives b fun root b' =>
      root.isSome = (statements.any Option.isSome) ∧
      b'.Always fun b'' => b''.arena.Chain (statements.filterMap id) (.ofOption root) := by
  rcases seq_run statements b with ⟨r, b', herror, full, -⟩ | ⟨root, b', hok, hroot, app, chain⟩
  · exact .of_full herror full
  · refine .of_ok hok app.extends (by rw [app.names]; exact wf) ⟨hroot, fun b'' grown fits => ?_⟩
    exact chain b''.arena (fun _ => Nat.le_trans grown.size fits) grown.keptIn

end Builder

end Treewalk
