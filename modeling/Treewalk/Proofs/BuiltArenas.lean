import Treewalk.Proofs.ParallelConstruction

/-! Arenas that builders leave. Whatever calls a builder has answered, the parts of its nodes come
before the nodes themselves, stretches lie inside their tables, names are known to the interner, and
every number that a call gave is a number of the arena, unless a list of statements passed the
absent number through. -/

namespace Treewalk

/-- The parts of every node come before it, stretches lie inside their tables, and all names are
among the first `n` ones. -/
structure Arena.WellBuilt (n : Nat) (a : Arena) : Prop where
  children : ∀ (i : Nat) (node : Node), a.nodes[i]? = some node →
    ∀ j ∈ a.children node, j = .absent ∨ j.index < i
  arguments : ∀ (i : Nat) (f : NodeId) (span : Span), a.nodes[i]? = some (.call f span) →
    span.stop ≤ a.arguments.size
  parameters : ∀ (i : Nat) (span : Span) (body : NodeId),
    a.nodes[i]? = some (.function span body) → span.stop ≤ a.parameters.size
  nodeNames : ∀ (i : Nat) (node : Node) (x : Name), a.nodes[i]? = some node →
    node.name? = some x → x.index < n
  parameterNames : ∀ x ∈ a.parameters, x.index < n

/-- The statements that are passed to a step. -/
def Construct.statements : Construct → List NodeId
  | seq ids | program ids | block ids | scopedBlock ids => ids.filterMap id
  | _ => []

/-- The builders that come about from the empty one, each with the calls that returned, the
latest first, and what they gave. A call refers to absent nodes or to numbers that earlier calls
gave. As the interner is shared, others may intern strings between the calls. -/
inductive Builder.Logged : Builder → List (Construct × Option NodeId) → Prop where
  | start : Logged {} []
  | intern {b : Builder} {log : List (Construct × Option NodeId)} {s : String} {x : Name}
      {names : Interner} (h : Logged b log) (done : Interner.intern s b.names = .ok x names) :
      Logged ⟨names, b.arena⟩ log
  | construct {b b' : Builder} {log : List (Construct × Option NodeId)} {root : Option NodeId}
      (h : Logged b log) (c : Construct)
      (earlier : ∀ i ∈ c.ids, i = .absent ∨ ∃ before, (before, some i) ∈ log)
      (done : c.perform b = .ok root b') : Logged b' ((c, root) :: log)

/-! ### What a call gives -/

/-- Arenas do not shrink. -/
theorem Arena.stable_le_size (n : Nat) : Arena.Stable fun a _ => n ≤ a.size where
  absent h := h
  fewer h _ := h
  lengthen h longer := by rwa [longer.size_eq]
  push h _ _ := by
    rw [size, Array.size_push]
    exact Nat.le_succ_of_le h

/-- Every node of an arena has a number, the last one maybe the number that marks absent nodes. -/
theorem Arena.stable_size_le : Arena.Stable fun a _ => a.size ≤ maxIndex + 1 where
  absent h := h
  fewer h _ := h
  lengthen h longer := by rwa [longer.size_eq]
  push := by
    intro a node id _ _ _ hid
    have hlt : id.index < UInt32.size := id.raw.toNat_lt
    rw [hid] at hlt
    rw [size, Array.size_push]
    exact hlt

namespace Builder

variable {b : Builder}

theorem alloc_inside (node : Node) :
    (alloc node).Yields b fun id b' => id.index < b'.arena.size := by
  refine (alloc_yields node).mono ?_
  rintro id b' ⟨hid, harena⟩
  simp [harena, Arena.size, hid]

/-- Statements in front of a tail end in a new node, if there are any. -/
theorem seqBefore_inside (second : NodeId) (earlier : List NodeId) :
    (seqBefore second earlier).Yields b fun id b' => id = second ∨ id.index < b'.arena.size := by
  induction earlier generalizing b second with
  | nil => exact .pure (.inl rfl)
  | cons first earlier ih =>
    refine (alloc_inside (.seq first second)).bind fun id₁ b₁ inside id b' run => .inr ?_
    rcases ih id₁ id b' run with rfl | hid
    · have grown : b₁.arena.size ≤ b'.arena.size :=
        @seqBefore_keeps _ _ [] (Arena.stable_le_size _) _ _ (Nat.le_refl _) id b' run
      exact Nat.lt_of_lt_of_le inside grown
    · exact hid

/-- A list of statements gives a single statement as it is, or a new node. -/
theorem seq_inside (statements : List (Option NodeId)) :
    (seq statements).Yields b fun root b' =>
      ∀ i, root = some i → i ∈ statements.filterMap id ∨ i.index < b'.arena.size := by
  unfold seq
  split
  · exact .pure (by rintro _ ⟨⟩)
  next last earlier heq =>
    refine .map ((seqBefore_inside last earlier).mono ?_)
    rintro i b' hi _ ⟨⟩
    refine hi.imp_left fun hlast => ?_
    rw [hlast, ← List.mem_reverse, heq]
    exact List.mem_cons_self

end Builder

/-- A call gives a number of the arena or one of the statements that were passed to it. -/
theorem Construct.perform_inside {b : Builder} (c : Construct) :
    c.perform.Yields b fun root b' =>
      ∀ i, root = some i → i ∈ c.statements ∨ i.index < b'.arena.size := by
  have stored : ∀ {b : Builder} (node : Node), (Builder.alloc node).Yields b
      fun id b' => ∀ i, some id = some i → i ∈ c.statements ∨ i.index < b'.arena.size := by
    intro b node
    refine (Builder.alloc_inside node).mono ?_
    rintro id b' inside _ ⟨⟩
    exact .inr inside
  cases c with
  | int _ | bool _ | null | print _ | binary _ _ _ | ifThen _ _ | ifElse _ _ _ | whileLoop _ _
  | seqPair _ _ => exact .map (stored _)
  | binarySymbol token l r =>
    simp only [perform, Builder.binarySymbol]
    split
    · exact .map (stored _)
    · exact .pure (by rintro _ ⟨⟩)
  | seq _ | program _ | block _ => exact Builder.seq_inside _
  | scopedBlock statements =>
    refine (Builder.seq_inside statements).bind fun root b₁ _ => ?_
    cases root with
    | none => exact .pure (by rintro _ ⟨⟩)
    | some body => exact .map (stored _)
  | ident x | declare x _ | assign x _ =>
    exact .map ((Builder.intern_yields x).bind fun _ _ _ => stored _)
  | function params body =>
    refine .map ((Builder.internAll_yields params).bind fun xs _ _ => ?_)
    exact (Builder.allocParameters_yields xs).bind fun _ _ _ => stored _
  | call f args => exact .map ((Builder.allocArguments_yields args).bind fun _ _ _ => stored _)

/-! ### What a builder leaves -/

theorem Interner.SameText.index_lt {t₁ t₂ : Interner} {x y : Name} (h : t₁.SameText t₂ x y) :
    x.index < t₁.size := by
  obtain ⟨p, hx, _⟩ := h
  exact (Array.getElem?_eq_some_iff.mp hx).1

theorem Span.stop_le_of_isSome {α : Type} {s : Span} {table : Array α}
    (h : (s.slice? table).isSome) : s.stop ≤ table.size := by
  by_contra outside
  simp [slice?, outside] at h

namespace Builder.Logged

variable {b : Builder} {log : List (Construct × Option NodeId)}

theorem grown (h : b.Logged log) : b.Grown (log.filterMap Prod.snd) := by
  induction h with
  | start => exact .start _
  | intern _ done ih => exact ih.intern done
  | @construct b b' log root _ c earlier done ih =>
    have hknown : ∀ i ∈ c.ids, i = .absent ∨ i ∈ log.filterMap Prod.snd := fun i hi =>
      (earlier i hi).imp_right fun ⟨before, hmem⟩ => List.mem_filterMap.mpr ⟨_, hmem, rfl⟩
    have hgrown := ih.construct c hknown done
    cases root <;> exact hgrown

/-- All names that the arena mentions have a string. -/
theorem alike (h : b.Logged log) : b.Alike b := by
  induction h with
  | start => exact ⟨Interner.wellFormed_initial, Interner.wellFormed_initial, .empty⟩
  | intern _ done ih =>
    obtain ⟨wf, keeps, _⟩ := Interner.intern_keeps ih.wf₁ done
    exact ⟨wf, wf, ih.arena.mono fun _ _ hx => hx.mono keeps keeps⟩
  | construct _ c _ done ih =>
    have agree := c.perform_uniform.agree ih
    rw [done] at agree
    cases agree with
    | ok alike _ _ _ => exact alike

theorem size_le (h : b.Logged log) : b.arena.size ≤ maxIndex + 1 := by
  induction h with
  | start => exact Nat.zero_le _
  | intern _ _ ih => exact ih
  | construct _ c _ done ih =>
    exact @Construct.perform_keeps _ _ [] Arena.stable_size_le c ih _ _ done

/-- A number that a call gave is inside the arena, or it is the absent one and was passed to the
call as a statement. -/
theorem given_inside (h : b.Logged log) {c : Construct} {i : NodeId} (hc : (c, some i) ∈ log) :
    (i = .absent ∧ .absent ∈ c.statements) ∨ i.index < b.arena.size := by
  induction h with
  | start => cases hc
  | intern _ _ ih => exact ih hc
  | @construct b b' log root before c' earlier done ih =>
    have covers := (before.construct c' earlier done).grown.founded.2
    rcases List.mem_cons.mp hc with hnew | hold
    · cases hnew
      have hi : b'.arena.Covers i := covers i (List.mem_cons_self)
      rcases c.perform_inside _ _ done i rfl with hstatement | inside
      · exact hi.imp_left fun habsent => ⟨habsent, habsent ▸ hstatement⟩
      · exact .inr inside
    · have grown : b.arena.size ≤ b'.arena.size :=
        @Construct.perform_keeps _ _ [] (Arena.stable_le_size _) c' (Nat.le_refl _) _ _ done
      exact (ih hold).imp_right fun inside => Nat.lt_of_lt_of_le inside grown

theorem exists_index (h : b.Logged log) {i : Nat} {node : Node}
    (hnode : b.arena.nodes[i]? = some node) : ∃ id : NodeId, id.index = i := by
  have hlt : i < b.arena.size := (Array.getElem?_eq_some_iff.mp hnode).1
  have hle : i ≤ maxIndex := Nat.le_of_lt_succ (Nat.lt_of_lt_of_le hlt h.size_le)
  exact ⟨⟨.ofNat i⟩, toNat_ofNat_index hle⟩

theorem wellBuilt (h : b.Logged log) : b.arena.WellBuilt b.names.size where
  children i node hnode := by
    obtain ⟨id, rfl⟩ := h.exists_index hnode
    exact h.grown.founded.1.children id node hnode
  arguments i f span hnode := by
    obtain ⟨id, rfl⟩ := h.exists_index hnode
    exact Span.stop_le_of_isSome (h.grown.founded.1.reads id _ hnode)
  parameters i span body hnode := by
    obtain ⟨id, rfl⟩ := h.exists_index hnode
    exact Span.stop_le_of_isSome (h.grown.founded.1.reads id _ hnode)
  nodeNames i node x hnode hx := by
    obtain ⟨id, rfl⟩ := h.exists_index hnode
    have itself := h.alike.arena.node? id
    rw [Arena.node?, hnode] at itself
    cases itself with
    | some alike =>
      obtain ⟨y, same⟩ := alike.exists_of_name? hx
      exact same.index_lt
  parameterNames x hx :=
    (List.forall₂_same.mp h.alike.arena.parameters x (Array.mem_toList_iff.mpr hx)).index_lt

end Builder.Logged

/-- What builders make is well founded. After any calls that returned and that referred to absent
nodes or to numbers given earlier, the parts of every node are absent or come before it, every
stretch lies inside its table, every name is known to the interner, and every number that a call
gave is inside the arena or is the absent number, passed to that very call as a statement. -/
theorem built_arenas_wellFounded {b : Builder} {log : List (Construct × Option NodeId)}
    (logged : b.Logged log) :
    b.arena.WellBuilt b.names.size ∧
    ∀ c i, (c, some i) ∈ log →
      (i = .absent ∧ .absent ∈ c.statements) ∨ i.index < b.arena.size :=
  ⟨logged.wellBuilt, fun _ _ => logged.given_inside⟩

/-- A list whose one statement is absent, a function with two parameters, a call with an absent
argument, and a token that is no operator. -/
theorem built_arenas_wellFounded_call :
    let a : Arena := ⟨#[.ident .empty, .function ⟨0, 2⟩ ⟨0⟩, .call ⟨1⟩ ⟨0, 2⟩],
      #[.absent, ⟨0⟩], #[.empty, .empty]⟩
    let log : List (Construct × Option NodeId) := [(.binarySymbol "<>" ⟨2⟩ ⟨0⟩, none),
      (.call ⟨1⟩ [.absent, ⟨0⟩], some ⟨2⟩), (.function ["", ""] ⟨0⟩, some ⟨1⟩),
      (.ident "", some ⟨0⟩), (.seq [none, some .absent], some .absent)]
    Builder.Logged ⟨.initial, a⟩ log ∧ a.WellBuilt Interner.initial.size ∧
      ∀ c i, (c, some i) ∈ log → (i = .absent ∧ .absent ∈ c.statements) ∨ i.index < a.size := by
  intro a log
  have hident : (Construct.ident "").perform ⟨.initial, {}⟩ =
      .ok (some ⟨0⟩) ⟨.initial, ⟨#[.ident .empty], #[], #[]⟩⟩ := by
    simp only [Construct.perform, Builder.ident, Bind.bind, EStateM.bind, Functor.map, EStateM.map,
      Builder.intern_empty]
    rfl
  have hfunction : (Construct.function ["", ""] ⟨0⟩).perform
      ⟨.initial, ⟨#[.ident .empty], #[], #[]⟩⟩ = .ok (some ⟨1⟩)
        ⟨.initial, ⟨#[.ident .empty, .function ⟨0, 2⟩ ⟨0⟩], #[], #[.empty, .empty]⟩⟩ := by
    simp only [Construct.perform, Builder.function, List.mapM_cons, List.mapM_nil, Bind.bind,
      EStateM.bind, Functor.map, EStateM.map, Builder.intern_empty]
    rfl
  have logged : Builder.Logged ⟨.initial, a⟩ log := by
    refine .construct (.construct (.construct (.construct (.construct .start _ ?_ rfl) _ ?_ hident)
      _ ?_ hfunction) _ ?_ rfl) _ ?_ rfl <;> simp [Construct.ids]
  exact ⟨logged, built_arenas_wellFounded logged⟩

end Treewalk
