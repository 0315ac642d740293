import Treewalk.Proofs.Histories

/-! Scopes form a forest, whatever happens to a store. Closures may be stored in the scopes that
they captured, so values lead in circles; but a scope is put inside an older one once and for all,
so every way outwards comes to an end. -/

namespace Treewalk

/-- The names that a scope lists are the names that it binds. -/
theorem Scope.mem_names_iff (sc : Scope) (x : Name) :
    x ∈ sc.bindings.map Prod.fst ↔ sc.binds x = true := by
  rw [binds, get?]
  induction sc.bindings with
  | nil => simp
  | cons b bs ih =>
    obtain ⟨y, v⟩ := b
    rw [List.map_cons, List.mem_cons, ih, List.lookup_cons]
    by_cases h : x = y
    · simp [h]
    · simp [h, beq_eq_false_iff_ne.mpr h]

namespace Store

/-- The scopes on the way outwards from a scope, link by link, up to one with nothing around it. -/
inductive Outwards (s : Store) : ScopeId → List ScopeId → Prop where
  | last {e : ScopeId} (h : s.parent e = none) : Outwards s e [e]
  | next {e p : ScopeId} {path : List ScopeId} (h : s.parent e = some p)
      (rest : Outwards s p path) : Outwards s e (e :: path)

variable {s : Store} {e : ScopeId}

/-- Where scopes are younger than the scopes around them, every way outwards comes to an end. -/
theorem Ordered.outwards (h : s.Ordered) (e : ScopeId) : s.Outwards e (s.chain e) := by
  induction e using Nat.strongRecOn with
  | _ e ih =>
    rw [chain]
    cases hp : s.parent e with
    | some p =>
      rw [outer?_eq_some hp (h := h e p hp)]
      exact .next hp (ih p (h e p hp))
    | none =>
      rw [outer?_eq_none hp]
      exact .last hp

theorem update_eq_bind (s : Store) (e : ScopeId) (x : Name) (v : Value) :
    ∃ b, ((s.chain e).find? (s.bindsLocally · x)).or (s.chain e).getLast? = some b ∧
      (s.update e x v).2 = s.bind b x v := by
  rw [update, binder?_eq_find?, getLast?_chain]
  cases (s.chain e).find? (s.bindsLocally · x) with
  | some b => exact ⟨b, rfl, rfl⟩
  | none => exact ⟨s.root e, rfl, rfl⟩

theorem depth_child (there : e < s.scopes.size) :
    (s.child e).2.depth (s.child e).1 = s.depth e + 1 := by
  have haround : s.Around e (s.chain e) := ⟨there, rfl⟩
  rw [depth_eq_length_chain, depth_eq_length_chain]
  exact congrArg List.length haround.child.chain

theorem Outwards.ne_nil {path : List ScopeId} (h : s.Outwards e path) : path ≠ [] := by
  cases h with
  | last | next => exact List.cons_ne_nil _ _

theorem Outwards.length_eq_one_iff {path : List ScopeId} (h : s.Outwards e path) :
    path.length = 1 ↔ s.isGlobal e = true := by
  cases h with
  | last h => simp [isGlobal, h]
  | next h rest => simp [isGlobal, h, rest.ne_nil]

end Store

/-- Stores that are as a ledger and a continuation of it say: the scopes of the first are scopes of
the second, inside the same scopes. -/
theorem Ledger.Fits.grows {w w' : Ledger} {s s' : Store} (h : w.Fits s) (h' : w'.Fits s')
    (hle : w.Le w') : s.Grows s' where
  size := by
    rw [h.size, h'.size]
    exact hle.links.length_le
  parent e he := by
    obtain ⟨more, hmore⟩ := hle.links
    rw [h.size] at he
    rw [h.parent, h'.parent, ← hmore, List.getElem?_append_left he]

/-- Scopes form a forest. In every state that comes about, scopes that are held are there, and so
are the scopes that closures captured, wherever these are held or bound. From every scope the links
lead, in finitely many steps, to one with nothing around it; the scopes on the way are those that
are counted and searched. In every later state a scope has the same scope around it and the same
depth. A new scope is one deeper than the one around it, exactly scopes with nothing around them
have depth one, and no scope binds a name twice: its size is the number of names that it binds. What
calls by a host program leave is a later state too, with their results in hand. -/
theorem scopes_form_forest {h h' : Holding} (arises : h.Arises) (later : h.Later h') :
    (∀ e ∈ h.scopes, e < h.store.scopes.size) ∧
    (∀ c, h.Has (.closure c) → c.env < h.store.scopes.size) ∧
    (∀ e, e < h.store.scopes.size → ∃ path, h.store.Outwards e path ∧
      h.store.depth e = path.length ∧
      (∀ x, h.store.resolve e x = path.findSome? (h.store.local? · x)) ∧
      ∀ x v, ∃ b, (path.find? (h.store.bindsLocally · x)).or path.getLast? = some b ∧
        (h.store.update e x v).2 = h.store.bind b x v) ∧
    (∀ e, e < h.store.scopes.size → e < h'.store.scopes.size ∧
      h'.store.parent e = h.store.parent e ∧ h'.store.depth e = h.store.depth e) ∧
    (∀ e, e < h.store.scopes.size →
      (h.store.child e).2.depth (h.store.child e).1 = h.store.depth e + 1) ∧
    (∀ e, e < h.store.scopes.size → (h.store.depth e = 1 ↔ h.store.isGlobal e = true)) ∧
    (∀ e, ∃ names : List Name, names.Nodup ∧ (∀ x, x ∈ names ↔ h.store.bindsLocally e x = true) ∧
      h.store.localSize e = names.length) ∧
    ∀ (it : Interpreter) n f args k, f ∈ h'.values → (∀ v ∈ args, v ∈ h'.values) →
      ∃ h'', h'.Later h'' ∧
        h''.store = (Outcome.state (it.callWith n f args ⟨h'.store, k⟩)).store ∧
        ∀ v, v ∈ h'.values ∨ Outcome.value? (it.callWith n f args ⟨h'.store, k⟩) = some v →
          v ∈ h''.values := by
  obtain ⟨w, rec⟩ := arises.recorded
  obtain ⟨w', hle, rec'⟩ := rec.later later
  have hgrows : h.store.Grows h'.store := rec.fits.grows rec'.fits hle
  have houtwards := rec.fits.ordered.outwards
  refine ⟨fun e he => ?_, fun c hc => ?_, fun e _ => ?_, fun e he => ⟨?_, hgrows.parent e he, ?_⟩,
    fun e he => Store.depth_child he, fun e _ => ?_, fun e => ?_,
    fun it n f args k hf hargs => Holding.exists_later_call hf hargs it n k⟩
  · exact rec.fits.lt_iff.mpr (rec.scopes e he)
  · exact rec.fits.lt_iff.mpr (rec.has hc c rfl).env
  · refine ⟨h.store.chain e, houtwards e, ?_, fun x => ?_, fun x v => ?_⟩
    · exact h.store.depth_eq_length_chain e
    · exact h.store.resolve_eq_findSome? e x
    · exact h.store.update_eq_bind e x v
  · exact Nat.lt_of_lt_of_le he hgrows.size
  · rw [Store.depth_eq_length_chain, Store.depth_eq_length_chain, hgrows.chain he]
  · rw [Store.depth_eq_length_chain]
    exact (houtwards e).length_eq_one_iff
  · exact ⟨(h.store.scope e).bindings.map Prod.fst, rec.fits.distinct e,
      (h.store.scope e).mem_names_iff, (List.length_map _).symm⟩

/-- A closure that is bound in the scope that it captured. -/
theorem scopes_form_forest_circle :
    let code : Code := ⟨0, {}⟩
    let s := ({} : Store).global.2.newClosure [] .absent 0 code
    let t := (s.2.declare 0 .empty (.closure s.1)).2
    t.local? 0 .empty = some (.closure s.1) ∧ s.1.env = 0 ∧
      ∃ path, t.Outwards s.1.env path ∧ t.depth s.1.env = path.length := by
  intro code s t
  have opened : Holding.Arises _ := .single (.global {})
  have made := opened.tail (.closure (Set.mem_insert _ _) [] .absent code)
  have arises : Holding.Arises _ :=
    made.tail (.declare (Set.mem_insert _ _) (Set.mem_insert _ _) .empty)
  obtain ⟨-, hcaptured, hpaths, -⟩ := scopes_form_forest arises .refl
  have hbound : t.local? 0 .empty = some (.closure s.1) := rfl
  obtain ⟨path, hpath, hdepth, -⟩ := hpaths s.1.env (hcaptured s.1 (.inr ⟨0, .empty, hbound⟩))
  exact ⟨hbound, rfl, path, hpath, hdepth⟩

end Treewalk
