import Treewalk.Proofs.Effects
import Treewalk.Proofs.Growth

/-! Storage in arenas. An accepted call gives a receipt, the number of a node or the stretch of a
list, and under that receipt the arena has from then on exactly what was stored, whatever is stored
or refused later. Receipts of different calls never share an entry of a table. The last number that
fits in 32 bits is given to a node too, although it marks nodes that are absent. -/

namespace Treewalk

/-! ### Accepted calls -/

theorem map_eq_ok_iff {ε σ α β : Type} {f : α → β} {m : EStateM ε σ α} {s s' : σ} {y : β} :
    (f <$> m) s = .ok y s' ↔ ∃ x, m s = .ok x s' ∧ f x = y := by
  simp only [Functor.map, EStateM.map]
  cases m s <;> simp [and_comm]

theorem Refusal.after_of_ok {σ α : Type} {m : EStateM Refusal σ α} {s s' : σ} {x : α}
    (run : m s = .ok x s') : Refusal.after m s = s' := by
  rw [Refusal.after, run]

namespace Span

variable {α : Type} {tableFull tooLong : Nat → Refusal} {entries : List α} {table table' : Array α}
  {s : Span}

theorem append_eq_ok_iff :
    Span.append tableFull tooLong entries table = .ok s table' ↔
      (table.size ≤ maxIndex ∧ entries.length ≤ maxListLength) ∧
        ⟨.ofNat table.size, .ofNat entries.length⟩ = s ∧ table ++ entries = table' := by
  by_cases room : table.size ≤ maxIndex
  · by_cases short : entries.length ≤ maxListLength <;> simp [Span.append, room, short]
  · simp [Span.append, room]

/-- A list is stored from the end of its table on. -/
theorem start_of_append (run : Span.append tableFull tooLong entries table = .ok s table') :
    s.start.toNat = table.size := by
  obtain ⟨⟨room, -⟩, rfl, -⟩ := append_eq_ok_iff.mp run
  exact toNat_ofNat_index room

theorem stop_of_append (run : Span.append tableFull tooLong entries table = .ok s table') :
    s.stop = table'.size := by
  have hstart := start_of_append run
  obtain ⟨⟨-, short⟩, rfl, rfl⟩ := append_eq_ok_iff.mp run
  rw [stop, hstart, toNat_ofNat_listLength short, size_append_list]

theorem found_of_append (run : Span.append tableFull tooLong entries table = .ok s table') :
    s.slice? table' = some entries := by
  obtain ⟨⟨room, short⟩, rfl, rfl⟩ := append_eq_ok_iff.mp run
  exact slice?_of_append room short

end Span

namespace Arena

variable {a a' : Arena}

theorem allocNode_eq_ok_iff {stored : Node} {id : NodeId} :
    allocNode stored a = .ok id a' ↔ a.nodes.size ≤ maxIndex ∧ ⟨.ofNat a.nodes.size⟩ = id ∧
      { a with nodes := a.nodes.push stored } = a' := by
  by_cases room : a.nodes.size ≤ maxIndex <;> simp [allocNode, room]

theorem allocArguments_eq_ok_iff {ids : List NodeId} {s : Span} :
    allocArguments ids a = .ok s a' ↔
      ∃ table, Span.append .argumentEntries .arguments ids a.arguments = .ok s table ∧
        { a with arguments := table } = a' := by
  simp only [allocArguments]
  cases Span.append .argumentEntries .arguments ids a.arguments <;> simp [and_assoc]

theorem allocParameters_eq_ok_iff {xs : List Name} {s : Span} :
    allocParameters xs a = .ok s a' ↔
      ∃ table, Span.append .parameterEntries .parameters xs a.parameters = .ok s table ∧
        { a with parameters := table } = a' := by
  simp only [allocParameters]
  cases Span.append .parameterEntries .parameters xs a.parameters <;> simp [and_assoc]

/-! ### Receipts -/

/-- The tables of an arena. -/
inductive Table where
  | nodes
  | arguments
  | parameters
deriving DecidableEq

/-- The number of entries of a table. -/
def extent (a : Arena) : Table → Nat
  | .nodes => a.nodes.size
  | .arguments => a.arguments.size
  | .parameters => a.parameters.size

namespace Allocation

/-- The table in which the call stores. -/
def table : Allocation → Table
  | .node _ => .nodes
  | .arguments _ => .arguments
  | .parameters _ => .parameters

/-- The number of entries that the call stores. -/
def length : Allocation → Nat
  | .node _ => 1
  | .arguments ids => ids.length
  | .parameters xs => xs.length

end Allocation

/-- What an accepted call gives: the number of a node, or the stretch of a list. -/
inductive Receipt where
  | node (id : NodeId)
  | arguments (span : Span)
  | parameters (span : Span)
deriving DecidableEq

namespace Receipt

/-- The table that the receipt refers to. -/
def table : Receipt → Table
  | .node _ => .nodes
  | .arguments _ => .arguments
  | .parameters _ => .parameters

/-- The first position that the receipt stands for. -/
def start : Receipt → Nat
  | .node id => id.index
  | .arguments span | .parameters span => span.start.toNat

/-- The position after the last one that the receipt stands for. -/
def stop : Receipt → Nat
  | .node id => id.index + 1
  | .arguments span | .parameters span => span.stop

/-- The receipts share an entry of a table. -/
def Overlaps (r r' : Receipt) : Prop :=
  r.table = r'.table ∧ ∃ i, r.start ≤ i ∧ i < r.stop ∧ r'.start ≤ i ∧ i < r'.stop

/-- What an arena has under a receipt, as the call that stores it. -/
def redeem (a : Arena) : Receipt → Option Allocation
  | .node id => (a.node? id).map .node
  | .arguments span => (a.arguments? span).map .arguments
  | .parameters span => (a.parameters? span).map .parameters

theorem redeem_of_keptIn {r : Receipt} {step : Allocation} (kept : a.KeptIn a')
    (h : r.redeem a = some step) : r.redeem a' = some step := by
  cases r <;> obtain ⟨stored, hstored, rfl⟩ := Option.map_eq_some_iff.mp h
  · exact Option.map_eq_some_iff.mpr ⟨stored, kept.nodes _ _ hstored, rfl⟩
  · exact Option.map_eq_some_iff.mpr ⟨stored, kept.arguments _ _ hstored, rfl⟩
  · exact Option.map_eq_some_iff.mpr ⟨stored, kept.parameters _ _ hstored, rfl⟩

end Receipt

/-- Makes a call and keeps its answer. -/
def Allocation.request : Allocation → EStateM Refusal Arena Receipt
  | .node stored => .node <$> allocNode stored
  | .arguments ids => .arguments <$> allocArguments ids
  | .parameters xs => .parameters <$> allocParameters xs

/-- The receipt stands for what the call has put at the end of its table. -/
structure Placed (a : Arena) (step : Allocation) (r : Receipt) (a' : Arena) : Prop where
  after : step.perform a = a'
  table : r.table = step.table
  start : r.start = a.extent step.table
  stop : r.stop = a'.extent step.table
  found : r.redeem a' = some step

variable {step : Allocation} {r : Receipt}

theorem placed_of_request (run : step.request a = .ok r a') : Placed a step r a' := by
  cases step with
  | node stored =>
    obtain ⟨id, hid, rfl⟩ := map_eq_ok_iff.mp run
    obtain ⟨room, rfl, rfl⟩ := allocNode_eq_ok_iff.mp hid
    have hindex : (⟨.ofNat a.nodes.size⟩ : NodeId).index = a.nodes.size :=
      toNat_ofNat_index room
    refine ⟨Refusal.after_of_ok hid, rfl, hindex, ?_, ?_⟩
    · simp [Receipt.stop, extent, Allocation.table, hindex]
    · simp [Receipt.redeem, node?, hindex]
  | arguments ids =>
    obtain ⟨s, hs, rfl⟩ := map_eq_ok_iff.mp run
    obtain ⟨table, stored, rfl⟩ := allocArguments_eq_ok_iff.mp hs
    exact ⟨Refusal.after_of_ok hs, rfl, Span.start_of_append stored, Span.stop_of_append stored,
      Option.map_eq_some_iff.mpr ⟨ids, Span.found_of_append stored, rfl⟩⟩
  | parameters xs =>
    obtain ⟨s, hs, rfl⟩ := map_eq_ok_iff.mp run
    obtain ⟨table, stored, rfl⟩ := allocParameters_eq_ok_iff.mp hs
    exact ⟨Refusal.after_of_ok hs, rfl, Span.start_of_append stored, Span.stop_of_append stored,
      Option.map_eq_some_iff.mpr ⟨xs, Span.found_of_append stored, rfl⟩⟩

/-- A call is accepted if the table is below its limit and the list is not too long. -/
theorem exists_request_iff :
    (∃ r a', step.request a = .ok r a') ↔
      a.extent step.table ≤ maxIndex ∧ step.length ≤ maxListLength := by
  cases step with
  | node stored =>
    simp [Allocation.request, map_eq_ok_iff, allocNode_eq_ok_iff, extent, Allocation.table,
      Allocation.length, maxListLength]
  | arguments ids =>
    simp [Allocation.request, map_eq_ok_iff, allocArguments_eq_ok_iff, Span.append_eq_ok_iff,
      extent, Allocation.table, Allocation.length]
  | parameters xs =>
    simp [Allocation.request, map_eq_ok_iff, allocParameters_eq_ok_iff, Span.append_eq_ok_iff,
      extent, Allocation.table, Allocation.length]

/-! ### Sequences of calls -/

theorem grow_append (a : Arena) (steps more : List Allocation) :
    a.grow (steps ++ more) = (a.grow steps).grow more :=
  List.foldl_append

theorem extent_perform (a : Arena) (step : Allocation) (t : Table) :
    (step.perform a).extent t =
      if step.table = t ∧ a.extent t ≤ maxIndex then a.extent t + step.length else a.extent t := by
  cases step with
  | node stored =>
    rw [Allocation.perform, after_allocNode]
    by_cases room : a.nodes.size ≤ maxIndex <;> cases t <;>
      simp [size, extent, Allocation.table, Allocation.length, room]
  | arguments ids =>
    rw [Allocation.perform, after_allocArguments, Span.after_append]
    by_cases room : a.arguments.size ≤ maxIndex <;> cases t <;>
      simp [extent, Allocation.table, Allocation.length, room, Span.size_append_list]
  | parameters xs =>
    rw [Allocation.perform, after_allocParameters, Span.after_append]
    by_cases room : a.parameters.size ≤ maxIndex <;> cases t <;>
      simp [extent, Allocation.table, Allocation.length, room, Span.size_append_list]

/-- Tables only grow. -/
theorem extent_le_grow (a : Arena) (steps : List Allocation) (t : Table) :
    a.extent t ≤ (a.grow steps).extent t := by
  induction steps generalizing a with
  | nil => exact Nat.le_refl _
  | cons step steps ih =>
    refine Nat.le_trans ?_ (ih (step.perform a))
    rw [extent_perform]
    split <;> omega

/-- Below the limit there is a node for each call that was to store one. -/
theorem extent_nodes_grow (a : Arena) (steps : List Allocation)
    (room : (a.grow steps).extent .nodes ≤ maxIndex) :
    (a.grow steps).extent .nodes =
      a.extent .nodes + steps.countP fun step => step.table = .nodes := by
  induction steps generalizing a with
  | nil => rfl
  | cons step steps ih =>
    have room₁ : a.extent .nodes ≤ maxIndex :=
      Nat.le_trans (extent_le_grow a (step :: steps) .nodes) room
    have hstep : (step.perform a).extent .nodes =
        a.extent .nodes + if step.table = .nodes then 1 else 0 := by
      rw [extent_perform]
      cases step <;> simp [Allocation.table, Allocation.length, room₁]
    have hrest : (a.grow (step :: steps)).extent .nodes = _ := ih (step.perform a) room
    rw [hrest, hstep, List.countP_cons]
    simp only [decide_eq_true_eq]
    omega

end Arena

/-- Storage in an arena is reliable. Whatever calls came before, a call is accepted if its table is
below its limit and a list has no more than 65535 entries. If it is accepted, its receipt gives back
exactly what was stored, at once and after any further calls, refused ones among them; nodes are
numbered from zero in the order of their calls; and no later receipt shares an entry with it. -/
theorem storage_reliable (earlier : List Arena.Allocation) (step : Arena.Allocation) :
    ((∃ r a, step.request (Arena.grow {} earlier) = .ok r a) ↔
      (Arena.grow {} earlier).extent step.table ≤ maxIndex ∧ step.length ≤ 65535) ∧
    ∀ r a, step.request (Arena.grow {} earlier) = .ok r a →
      a = Arena.grow {} (earlier ++ [step]) ∧
      (∀ later, r.redeem (Arena.grow {} (earlier ++ step :: later)) = some step) ∧
      (∀ id, r = .node id →
        id.index = earlier.countP fun before => before.table = .nodes) ∧
      ∀ (between : List Arena.Allocation) (step' : Arena.Allocation) (r' : Arena.Receipt)
        (a' : Arena), step'.request (Arena.grow {} (earlier ++ step :: between)) = .ok r' a' →
          ¬ r.Overlaps r' := by
  refine ⟨Arena.exists_request_iff, fun r a run => ?_⟩
  have placed := Arena.placed_of_request run
  have hgrow : ∀ more, Arena.grow {} (earlier ++ step :: more) = a.grow more := by
    intro more
    rw [Arena.grow_append, ← placed.after]
    rfl
  refine ⟨(hgrow []).symm, fun later => ?_, ?_, ?_⟩
  · rw [hgrow]
    exact Arena.Receipt.redeem_of_keptIn (.grow a later) placed.found
  · rintro id rfl
    have hstart : id.index = _ := placed.start
    have room := (Arena.exists_request_iff.mp ⟨_, _, run⟩).1
    have htable : step.table = .nodes := placed.table.symm
    rw [htable] at hstart room
    rw [hstart, Arena.extent_nodes_grow {} earlier room]
    exact Nat.zero_add _
  · rintro between step' r' a' run' ⟨same, i, -, hi, hi', -⟩
    have placed' := Arena.placed_of_request run'
    have hle := Arena.extent_le_grow a between step.table
    rw [hgrow] at placed'
    rw [placed.table, placed'.table] at same
    rw [placed.stop] at hi
    rw [placed'.start, ← same] at hi'
    omega

/-- A list of arguments between two lists that are refused for their lengths. -/
theorem storage_reliable_refusals :
    let step : Arena.Allocation := .arguments [⟨0⟩, .absent]
    ∃ long : Arena.Allocation, long.table = .arguments ∧ long.length = 65536 ∧
      ¬ (∃ r a, long.request (Arena.grow {} [.node .null]) = .ok r a) ∧
      ∃ r a, step.request (Arena.grow {} [.node .null, long]) = .ok r a ∧
        r.redeem a = some step ∧
        r.redeem (Arena.grow {} [.node .null, long, step, .parameters [.empty], long]) =
          some step := by
  intro step
  obtain ⟨ids, hids⟩ : ∃ ids : List NodeId, ids.length = 65536 :=
    ⟨List.replicate 65536 .absent, List.length_replicate⟩
  have hextent : (Arena.grow {} [.node .null, .arguments ids]).extent step.table = 65536 := by
    simp only [Arena.grow, List.foldl_cons, List.foldl_nil, Arena.extent_perform]
    simp [step, Arena.extent, Arena.Allocation.table, Arena.Allocation.length, hids]
  have storage := storage_reliable [.node .null, .arguments ids] step
  obtain ⟨r, a, run⟩ := storage.1.mpr ⟨by rw [hextent]; decide, by decide⟩
  obtain ⟨after, found, -⟩ := storage.2 r a run
  refine ⟨.arguments ids, rfl, hids, fun accepted => ?_, r, a, run, ?_, found _⟩
  · have hlength := ((storage_reliable [.node .null] (.arguments ids)).1.mp accepted).2
    simp [Arena.Allocation.length, hids] at hlength
  · rw [after]
    exact found []

/-! ### The last number -/

/-- The number of a new node, whether or not it marks absent nodes, leads to the node. -/
theorem Arena.node?_next {a : Arena} (fits : a.size ≤ maxIndex) (node : Node) :
    Arena.node? { a with nodes := a.nodes.push node } ⟨.ofNat a.size⟩ = some node := by
  rw [Arena.node?, NodeId.index, toNat_ofNat_index fits]
  exact Array.getElem?_push_size

theorem Interpreter.evalWith_absent (n : Nat) (it : Interpreter) (s : State) :
    it.evalWith (n + 1) .absent s = .ok .null s := rfl

/-- A node under the last number is taken for an absent one. An arena with no more nodes than the
greatest index stores one more under the next number; that number is present, and evaluates to what
the node does, only if it is not the greatest one. -/
theorem stored_node_present_iff (a : Arena) (fits : a.size ≤ maxIndex) (node : Node) :
    ∃ id a', Arena.allocNode node a = .ok id a' ∧ a'.node? id = some node ∧
      (id.isPresent = true ↔ a.size < maxIndex) ∧
      ∀ (it : Interpreter) (n : Nat) (s : State), it.code.arena = a' →
        it.evalWith (n + 1) id s =
          if a.size < maxIndex then it.evalNode (Interpreter.evalWith n) n node s
          else .ok .null s := by
  refine ⟨_, _, Arena.allocNode_of_le node fits, Arena.node?_next fits node, ?_⟩
  by_cases below : a.size < maxIndex
  · have hold := Builder.holds_next (b := { arena := a }) node below (.refl _)
    refine ⟨iff_of_true hold.present below, fun it n s code => ?_⟩
    rw [if_pos below, Interpreter.evalWith_holds (code ▸ hold)]
  · have last : a.size = maxIndex := Nat.le_antisymm fits (Nat.le_of_not_lt below)
    rw [last]
    refine ⟨iff_of_false nofun (Nat.lt_irrefl _), fun it n s _ => ?_⟩
    rw [if_neg (Nat.lt_irrefl _)]
    exact Interpreter.evalWith_absent n it s

/-- The first node of an arena is present and evaluates to itself. -/
theorem stored_node_present_iff_first :
    (⟨0⟩ : NodeId).isPresent = true ∧
    ∃ a', Arena.allocNode (.int 7) {} = .ok ⟨0⟩ a' ∧ a'.node? ⟨0⟩ = some (.int 7) ∧
      ∀ (it : Interpreter) (s : State), it.code.arena = a' →
        it.evalWith 1 ⟨0⟩ s = .ok (.int 7) s := by
  obtain ⟨id, a', run, found, present, eval⟩ := stored_node_present_iff {} (by decide) (.int 7)
  cases (Arena.allocNode_of_le (a := {}) (.int 7) (by decide)).symm.trans run
  exact ⟨present.mpr (by decide), _, run, found, fun it s code => eval it 0 s code⟩

/-- The node after as many others as the greatest index is stored under the number that marks absent
nodes, so that it reads as null. -/
theorem last_node_reads_as_null :
    ∃ a : Arena, a.size = 4294967295 ∧ ∃ a', Arena.allocNode (.int 7) a = .ok .absent a' ∧
      a'.node? .absent = some (.int 7) ∧ NodeId.absent.isPresent = false ∧
      ∀ (it : Interpreter) (s : State), it.code.arena = a' → it.eval .absent s = .ok .null s := by
  obtain ⟨a, hsize⟩ : ∃ a : Arena, a.size = maxIndex :=
    ⟨{ nodes := Array.replicate maxIndex .null }, Array.size_replicate⟩
  have fits := Nat.le_of_eq hsize
  have run := Arena.allocNode_of_le (.int 7) fits
  have found := Arena.node?_next fits (.int 7)
  rw [hsize] at run found
  exact ⟨a, hsize, _, run, found, rfl, fun it s _ =>
    Interpreter.evalWith_absent (Interpreter.ample - 1) it s⟩

end Treewalk
