import Treewalk.Proofs.Identity

/-! What updates and declarations change for every scope of a store. Both write one binding in one
scope. From wherever a name is resolved, the written value is found if no scope on the way to the
written one binds the name, and otherwise everything is found as before. -/

namespace Treewalk

/-- A binding is added unless there is one to change. -/
theorem Scope.size_bind (sc : Scope) (x : Name) (v : Value) :
    (sc.bind x v).size = sc.size + if sc.binds x then 0 else 1 := by
  rw [size, bind, ← List.length_map Prod.fst, names_put, size]
  by_cases bound : x ∈ sc.bindings.map Prod.fst
  · rw [if_pos bound, if_pos ((sc.mem_names_iff x).mp bound), List.length_map, Nat.add_zero]
  · rw [if_neg bound, if_neg fun h => bound ((sc.mem_names_iff x).mpr h), List.length_append,
      List.length_map, List.length_singleton]

namespace Store

/-! ### One binding -/

/-- The store `t` is `s`, but for the scope `b`, which now binds `x` to `v`. -/
structure Writes (b : ScopeId) (x : Name) (v : Value) (s t : Store) : Prop where
  size : t.scopes.size = s.scopes.size
  others : ∀ e, e ≠ b → t.scope e = s.scope e
  parent : t.parent b = s.parent b
  localSize : t.localSize b = s.localSize b + if s.bindsLocally b x then 0 else 1
  value : ∀ y, t.local? b y = if y = x then some v else s.local? b y
  nextClosure : t.nextClosure = s.nextClosure
  nextCode : t.nextCode = s.nextCode

/-- On the path outwards, the scope `b` comes before all others that bind `x`. -/
def Exposed (s : Store) (x : Name) (b : ScopeId) (path : List ScopeId) : Prop :=
  ∃ nearer farther, path = nearer ++ b :: farther ∧ ∀ a ∈ nearer, s.bindsLocally a x = false

variable {s t : Store} {a b e g : ScopeId} {x y : Name} {v : Value} {path : List ScopeId}

theorem exposed_cons_self : s.Exposed x b (b :: path) := ⟨[], path, rfl, by simp⟩

theorem not_exposed_nil : ¬ s.Exposed x b [] := by
  rintro ⟨nearer, farther, h, -⟩
  simp at h

theorem exposed_cons_of_ne (hne : a ≠ b) :
    s.Exposed x b (a :: path) ↔ s.bindsLocally a x = false ∧ s.Exposed x b path := by
  constructor
  · rintro ⟨nearer, farther, h, hfree⟩
    cases nearer with
    | nil => exact absurd (List.cons.inj h).1 hne
    | cons a' nearer =>
      obtain ⟨rfl, rfl⟩ := List.cons.inj h
      rw [List.forall_mem_cons] at hfree
      exact ⟨hfree.1, nearer, farther, rfl, hfree.2⟩
  · rintro ⟨hfirst, nearer, farther, rfl, hfree⟩
    exact ⟨a :: nearer, farther, rfl, List.forall_mem_cons.mpr ⟨hfirst, hfree⟩⟩

theorem Exposed.mem (h : s.Exposed x b path) : b ∈ path := by
  obtain ⟨nearer, farther, rfl, -⟩ := h
  simp

theorem bindsLocally_eq_isSome (s : Store) (e : ScopeId) (x : Name) :
    s.bindsLocally e x = (s.local? e x).isSome := rfl

theorem bindsLocally_eq_false : s.bindsLocally e x = false ↔ s.local? e x = none := by
  rw [bindsLocally_eq_isSome, Option.isSome_eq_false_iff, Option.isNone_iff_eq_none]

theorem writes_bind (there : b < s.scopes.size) (x : Name) (v : Value) :
    s.Writes b x v (s.bind b x v) where
  size := size_bind s b x v
  others e hne := by rw [scope_bind, if_neg fun h => hne h.1]
  parent := parent_bind s b b x v
  localSize := by
    rw [localSize, scope_bind, if_pos ⟨rfl, there⟩]
    exact (s.scope b).size_bind x v
  value y := by
    rw [local?_bind]
    simp [there]
  nextClosure := rfl
  nextCode := rfl

namespace Writes

theorem local?_of_ne (h : s.Writes b x v t) (hne : e ≠ b) (y : Name) :
    t.local? e y = s.local? e y := by
  rw [local?, h.others e hne, local?]

theorem local?_self (h : s.Writes b x v t) : t.local? b x = some v := by
  rw [h.value, if_pos rfl]

theorem lt (h : s.Writes b x v t) : b < t.scopes.size := by
  refine Nat.lt_of_not_le fun hge => ?_
  have hvalue := h.local?_self
  rw [local?_of_size_le hge] at hvalue
  cases hvalue

theorem bindsLocally_self (h : s.Writes b x v t) : t.bindsLocally b x = true := by
  rw [bindsLocally_eq_isSome, h.local?_self, Option.isSome_some]

theorem bindsLocally_of_ne (h : s.Writes b x v t) (hne : e ≠ b) (y : Name) :
    t.bindsLocally e y = s.bindsLocally e y := by
  rw [bindsLocally_eq_isSome, h.local?_of_ne hne, bindsLocally_eq_isSome]

/-- Other names have the values that they had. -/
theorem local?_of_name_ne (h : s.Writes b x v t) (hy : y ≠ x) (e : ScopeId) :
    t.local? e y = s.local? e y := by
  by_cases he : e = b
  · rw [he, h.value, if_neg hy]
  · exact h.local?_of_ne he y

theorem parent_eq (h : s.Writes b x v t) (e : ScopeId) : t.parent e = s.parent e := by
  by_cases he : e = b
  · rw [he, h.parent]
  · rw [Store.parent, h.others e he, Store.parent]

theorem chain_eq (h : s.Writes b x v t) (e : ScopeId) : t.chain e = s.chain e := by
  induction e using Nat.strongRecOn with
  | _ e ih =>
    have houter : t.outer? e = s.outer? e := by
      unfold outer?
      rw [h.parent_eq]
    rw [chain, chain, houter]
    cases s.outer? e with
    | some p => simp only [ih p.1 p.2]
    | none => rfl

/-! ### What is found along a path -/

/-- The scope that was written to is now the first that binds the name exactly if no scope before it
did. -/
theorem find?_eq_some_iff (h : s.Writes b x v t) (path : List ScopeId) :
    path.find? (t.bindsLocally · x) = some b ↔ s.Exposed x b path := by
  induction path with
  | nil => simp [not_exposed_nil]
  | cons a path ih =>
    rw [List.find?_cons]
    by_cases hab : a = b
    · subst hab
      simp [h.bindsLocally_self, exposed_cons_self]
    · rw [exposed_cons_of_ne hab, h.bindsLocally_of_ne hab]
      cases hbound : s.bindsLocally a x with
      | true => simp [hab]
      | false => simpa using ih

theorem findSome?_of_exposed (h : s.Writes b x v t) (exposed : s.Exposed x b path) :
    path.findSome? (t.local? · x) = some v := by
  induction path with
  | nil => exact absurd exposed not_exposed_nil
  | cons a path ih =>
    rw [List.findSome?_cons]
    by_cases hab : a = b
    · rw [hab, h.local?_self]
    · obtain ⟨hfree, hrest⟩ := (exposed_cons_of_ne hab).mp exposed
      rw [h.local?_of_ne hab, bindsLocally_eq_false.mp hfree]
      exact ih hrest

theorem findSome?_of_hidden (h : s.Writes b x v t) (hidden : ¬ (y = x ∧ s.Exposed x b path)) :
    path.findSome? (t.local? · y) = path.findSome? (s.local? · y) := by
  by_cases hy : y = x
  · subst hy
    induction path with
    | nil => rfl
    | cons a path ih =>
      have hab : a ≠ b := by
        rintro rfl
        exact hidden ⟨rfl, exposed_cons_self⟩
      rw [List.findSome?_cons, List.findSome?_cons, h.local?_of_ne hab]
      cases hfound : s.local? a y with
      | some w => rfl
      | none =>
        refine ih fun hrest => hidden ⟨rfl, ?_⟩
        exact (exposed_cons_of_ne hab).mpr ⟨bindsLocally_eq_false.mpr hfound, hrest.2⟩
  · simp only [h.local?_of_name_ne hy]

/-- From where the written scope is exposed, the written value is found. -/
theorem resolve_of_exposed (h : s.Writes b x v t) (exposed : s.Exposed x b (s.chain g)) :
    t.resolve g x = some v := by
  rw [resolve_eq_findSome?, h.chain_eq]
  exact h.findSome?_of_exposed exposed

/-- Otherwise everything is found as before. -/
theorem resolve_of_hidden (h : s.Writes b x v t)
    (hidden : ¬ (y = x ∧ s.Exposed x b (s.chain g))) : t.resolve g y = s.resolve g y := by
  rw [resolve_eq_findSome?, h.chain_eq, resolve_eq_findSome?]
  exact h.findSome?_of_hidden hidden

/-- What is found from every scope. -/
theorem resolve_eq (h : s.Writes b x v t) (g : ScopeId) (y : Name) :
    t.resolve g y =
      if y = x ∧ (t.chain g).find? (t.bindsLocally · x) = some b then some v
      else s.resolve g y := by
  have found_iff : (t.chain g).find? (t.bindsLocally · x) = some b ↔
      s.Exposed x b (s.chain g) := by
    rw [h.chain_eq]
    exact h.find?_eq_some_iff (s.chain g)
  split
  next found =>
    rw [found.1]
    exact h.resolve_of_exposed (found_iff.mp found.2)
  next hidden => exact h.resolve_of_hidden fun h => hidden ⟨h.1, found_iff.mpr h.2⟩

end Writes

/-! ### Updates -/

theorem update_of_found (found : (s.chain e).find? (s.bindsLocally · x) = some b) (v : Value) :
    s.update e x v = (.rebound, s.bind b x v) := by
  rw [update, binder?_eq_find?, found]

theorem rebound_iff (s : Store) (e : ScopeId) (x : Name) (v : Value) :
    (s.update e x v).1 = .rebound ↔ ∃ b, (s.chain e).find? (s.bindsLocally · x) = some b := by
  rw [update, binder?_eq_find?]
  cases (s.chain e).find? (s.bindsLocally · x) with
  | some b => simp
  | none => simp

/-- A name is resolved exactly if some scope on the way outwards binds it. -/
theorem isSome_resolve_iff (s : Store) (e : ScopeId) (x : Name) :
    (s.resolve e x).isSome = true ↔ ∃ b, (s.chain e).find? (s.bindsLocally · x) = some b := by
  rw [resolve_eq_findSome?, List.findSome?_isSome_iff, ← Option.isSome_iff_exists,
    List.find?_isSome]
  rfl

/-- An update writes to the first scope that binds the name, or else to the outermost one. -/
theorem writes_update (there : e < s.scopes.size) (x : Name) (v : Value) :
    ∃ b, ((s.chain e).find? (s.bindsLocally · x)).or (s.chain e).getLast? = some b ∧
      s.Writes b x v (s.update e x v).2 := by
  obtain ⟨b, target, hupdate⟩ := s.update_eq_bind e x v
  have hb : b ∈ s.chain e := by
    rcases Option.or_eq_some_iff.mp target with h | h
    · exact List.mem_of_find?_eq_some h
    · exact List.mem_of_getLast? h.2
  rw [hupdate]
  exact ⟨b, target, writes_bind (Nat.lt_of_le_of_lt (le_of_mem_chain hb) there) x v⟩

/-! ### Declarations -/

theorem duplicate_iff (s : Store) (e : ScopeId) (x : Name) (v : Value) :
    (s.declare e x v).1 = .duplicate ↔ s.bindsLocally e x = true := by
  unfold declare
  split
  next bound => simp [bound]
  next free => simp [free]

theorem declare_of_bound (h : s.bindsLocally e x = true) (v : Value) :
    (s.declare e x v).2 = s := by
  rw [declare, if_pos h]

theorem declare_of_free (h : s.bindsLocally e x = false) (v : Value) :
    (s.declare e x v).2 = s.bind e x v := by
  rw [declare, if_neg (Bool.eq_false_iff.mp h)]

/-! ### Scopes beside each other -/

/-- A scope that does not bind a name leaves the scope around it exposed. -/
theorem Ordered.exposed_of_parent (h : s.Ordered) (inner : s.parent g = some e)
    (free : s.bindsLocally g x = false) : s.Exposed x e (s.chain g) := by
  have hne : g ≠ e := by
    rintro rfl
    exact Nat.lt_irrefl g (h g g inner)
  rw [h.chain_eq, inner, Option.map_some, Option.getD_some, exposed_cons_of_ne hne, h.chain_eq]
  exact ⟨free, exposed_cons_self⟩

/-- The way outwards from a scope around another one does not lead to the latter. -/
theorem notMem_chain_of_mem (outer : g ∈ s.chain e) (hne : g ≠ e) : e ∉ s.chain g := by
  intro he
  exact hne (Nat.le_antisymm (le_of_mem_chain outer) (le_of_mem_chain he))

/-- The ways outwards from two scopes in the same scope meet only there. -/
theorem Ordered.notMem_chain_of_parent_eq (h : s.Ordered) (sibling : s.parent g = s.parent e)
    (hne : g ≠ e) : e ∉ s.chain g := by
  rw [h.chain_eq, sibling, List.mem_cons, not_or]
  refine ⟨hne.symm, ?_⟩
  cases hp : s.parent e with
  | some p =>
    intro he
    exact Nat.not_le_of_lt (h e p hp) (le_of_mem_chain he)
  | none => exact List.not_mem_nil

end Store

/-! ### Expressions that bind names -/

namespace Holding

variable {h : Holding} {w : Ledger} {it : Interpreter} {id i : NodeId} {k : Sink} {x : Name}
  {v : Value} {u : State} {r : Outcome Value}

/-- A scope is still there when an evaluation in it has come to its end. -/
theorem Recorded.lt_of_ends (rec : h.Recorded w) (there : it.env < h.store.scopes.size)
    (ends : it.Ends i ⟨h.store, k⟩ (.ok v u)) : it.env < u.store.scopes.size := by
  obtain ⟨n, hn⟩ := ends.settles
  have start : ledger.At w ⟨n, it, i, ⟨h.store, k⟩⟩ := ⟨rec.fits, rec.fits.lt_iff.mp there⟩
  obtain ⟨w', hle, hfits, -⟩ := start.run
  have hout : Activation.run ⟨n, it, i, ⟨h.store, k⟩⟩ = .ok v u := hn n (Nat.le_refl n)
  rw [hout] at hfits
  exact (Ledger.Fits.lt_iff hfits).mpr (hle.lt (rec.fits.lt_iff.mp there))

/-- An assignment gives the value of its operand. -/
theorem Recorded.ends_assign_iff (rec : h.Recorded w) (there : it.env < h.store.scopes.size)
    (hold : it.code.arena.Holds id (.assign x i)) :
    it.Ends id ⟨h.store, k⟩ r ↔
      (∃ v u, it.Ends i ⟨h.store, k⟩ (.ok v u) ∧
        r = .ok v { u with store := (u.store.update it.env x v).2 }) ∨
      ∃ cause u, it.Ends i ⟨h.store, k⟩ (.error cause u) ∧ r = .error cause u := by
  have step : ∀ n, it.evalWith (n + 1) id = it.evalWith n i >>= fun v =>
      (do let _ ← EvalM.onStore (·.update it.env x v); it.lookup x) :=
    fun n => Interpreter.evalWith_holds hold
  rw [Interpreter.ends_bind_iff step fun v t => trivial]
  refine or_congr_left (exists₂_congr fun v u => and_congr_right fun ends => ?_)
  rw [Interpreter.assign_run, Store.resolve_update (rec.lt_of_ends there ends)]
  rfl

/-- A declaration gives the value of its operand, or fails and changes nothing. -/
theorem Recorded.ends_declare_iff (rec : h.Recorded w) (there : it.env < h.store.scopes.size)
    (hold : it.code.arena.Holds id (.declare x i)) :
    it.Ends id ⟨h.store, k⟩ r ↔
      (∃ v u, it.Ends i ⟨h.store, k⟩ (.ok v u) ∧
        r = if u.store.bindsLocally it.env x
          then .error (.error (.duplicateDeclaration (it.names.lookup x))) u
          else .ok v { u with store := (u.store.declare it.env x v).2 }) ∨
      ∃ cause u, it.Ends i ⟨h.store, k⟩ (.error cause u) ∧ r = .error cause u := by
  have step : ∀ n, it.evalWith (n + 1) id = it.evalWith n i >>= fun v =>
      (do it.declareIn it.env x v; it.lookup x) :=
    fun n => Interpreter.evalWith_holds hold
  have finished : ∀ v t, Outcome.Finished
      ((do it.declareIn it.env x v; it.lookup x : EvalM Value) t) := by
    intro v t
    rw [Interpreter.declare_run]
    split
    · trivial
    · trivial
  rw [Interpreter.ends_bind_iff step finished]
  refine or_congr_left (exists₂_congr fun v u => and_congr_right fun ends => ?_)
  rw [Interpreter.declare_run, Store.resolve_bind (rec.lt_of_ends there ends)]
  by_cases bound : u.store.bindsLocally it.env x = true
  · rw [if_pos bound, if_pos bound]
  · rw [if_neg bound, if_neg bound, Store.declare_of_free (eq_false_of_ne_true bound)]
    rfl

end Holding

/-! ### Every scope -/

/-- Updates, seen from every scope. In every state that comes about, every way outwards leads, link
by link, to a scope with nothing around it. An update of `x` from `e` rebinds exactly if `x` is
resolved from `e`. It writes to `b`, the first scope on the way outwards from `e` that binds `x`, or
else the outermost one, and changes nothing else. Then `x` has the new value from every scope from
which `b` is now the first to bind it, from `e` in particular, and everything else is resolved as
before; and a further update from such a scope rebinds `x` in `b` again. An assignment gives the
value of its operand, whatever that is. -/
theorem update_effect {h : Holding} (arises : h.Arises) {e : ScopeId}
    (there : e < h.store.scopes.size) (x : Name) (v : Value) :
    let s := h.store
    let t := (s.update e x v).2
    (∀ g, s.Outwards g (s.chain g)) ∧
    ((s.update e x v).1 = .rebound ↔ (s.resolve e x).isSome = true) ∧
    (∃ b, ((s.chain e).find? (s.bindsLocally · x)).or (s.chain e).getLast? = some b ∧
      s.Writes b x v t ∧
      (∀ g y, t.resolve g y =
        if y = x ∧ (t.chain g).find? (t.bindsLocally · x) = some b then some v
        else s.resolve g y) ∧
      ∀ g w, (t.chain g).find? (t.bindsLocally · x) = some b →
        (t.update g x w).1 = .rebound ∧ t.Writes b x w (t.update g x w).2) ∧
    t.resolve e x = some v ∧
    ∀ (it : Interpreter) k id y i r, it.env < s.scopes.size →
      it.code.arena.Holds id (.assign y i) →
      (it.Ends id ⟨s, k⟩ r ↔
        (∃ w u, it.Ends i ⟨s, k⟩ (.ok w u) ∧
          r = .ok w { u with store := (u.store.update it.env y w).2 }) ∨
        ∃ cause u, it.Ends i ⟨s, k⟩ (.error cause u) ∧ r = .error cause u) := by
  intro s t
  obtain ⟨w, rec⟩ := arises.recorded
  obtain ⟨b, target, writes⟩ := Store.writes_update there x v
  refine ⟨rec.fits.ordered.outwards, ?_,
    ⟨b, target, writes, writes.resolve_eq, fun g w found => ?_⟩, Store.resolve_update there x v,
    fun it k id y i r inside hold => rec.ends_assign_iff inside hold⟩
  · rw [Store.rebound_iff, Store.isSome_resolve_iff]
  · rw [Store.update_of_found found]
    exact ⟨rfl, Store.writes_bind writes.lt x w⟩

/-- A name that is nowhere bound on the way outwards from the scope 1 becomes a global variable. The
scope 2 beside it has a variable of that name, and keeps it. -/
theorem update_effect_new_global :
    let s := (((({} : Store).global.2.child 0).2.child 0).2.declare 2 .empty .null).2
    let t := (s.update 1 .empty (.int 7)).2
    (s.update 1 .empty (.int 7)).1 ≠ .rebound ∧ s.Writes 0 .empty (.int 7) t ∧
      t.resolve 1 .empty = some (.int 7) ∧ t.resolve 2 .empty = s.resolve 2 .empty := by
  intro s t
  have opened : Holding.Arises _ := .single (.global {})
  have first : Holding.Arises _ := opened.tail (.child (e := 0) (Set.mem_insert _ _))
  have second : Holding.Arises _ :=
    first.tail (.child (e := 0) (Set.mem_insert_of_mem _ (Set.mem_insert _ _)))
  have holding : Holding.Arises _ := second.tail (.data (v := .null) rfl)
  have arises : Holding.Arises _ :=
    holding.tail (.declare (e := 2) (Set.mem_insert _ _) (Set.mem_insert _ _) .empty)
  obtain ⟨-, hrebound, ⟨b, target, writes, hresolve, -⟩, hself, -⟩ :=
    update_effect arises (e := 1) (by decide) .empty (.int 7)
  have htarget :
      ((s.chain 1).find? (s.bindsLocally · .empty)).or (s.chain 1).getLast? = some 0 := by
    decide +kernel
  obtain rfl : b = 0 := Option.some.inj (target.symm.trans htarget)
  have hunbound : (s.resolve 1 .empty).isSome = false := by decide +kernel
  have hshadowed : (t.chain 2).find? (t.bindsLocally · .empty) ≠ some 0 := by decide +kernel
  refine ⟨fun h => ?_, writes, hself, ?_⟩
  · exact Bool.false_ne_true (hunbound.symm.trans (hrebound.mp h))
  · rw [hresolve 2 .empty]
    exact if_neg fun h => hshadowed h.2

/-- Declarations, seen from every scope. In every state that comes about, every way outwards leads
link by link to a scope with nothing around it, and closures have captured scopes that are there. A
declaration of `x` in `e` fails exactly if `e` itself binds `x`, and then it changes nothing.
Otherwise `e` now binds `x`, and nothing else has changed. Then `x` has the new value from every
scope whose way outwards comes to `e` before any scope that binds `x`, also if the scope is older
than the declaration, and everything else is resolved as before, in particular all names from the
scopes around `e` and beside it. A declaration by an expression gives the value of its operand, or
fails in the state that the operand left. -/
theorem declare_effect {h : Holding} (arises : h.Arises) {e : ScopeId}
    (there : e < h.store.scopes.size) (x : Name) (v : Value) :
    let s := h.store
    let t := (s.declare e x v).2
    (∀ g, s.Outwards g (s.chain g)) ∧
    (∀ c, h.Has (.closure c) → c.env < s.scopes.size) ∧
    ((s.declare e x v).1 = .duplicate ↔ s.bindsLocally e x = true) ∧
    (s.bindsLocally e x = true → t = s) ∧
    (s.bindsLocally e x = false →
      s.Writes e x v t ∧
      (∀ g, s.Exposed x e (s.chain g) → t.resolve g x = some v) ∧
      (∀ g y, ¬ (y = x ∧ s.Exposed x e (s.chain g)) → t.resolve g y = s.resolve g y) ∧
      (∀ g, s.parent g = some e → s.bindsLocally g x = false → t.resolve g x = some v) ∧
      ∀ g y, g ≠ e → g ∈ s.chain e ∨ s.parent g = s.parent e →
        t.resolve g y = s.resolve g y) ∧
    ∀ (it : Interpreter) k id y i r, it.env < s.scopes.size →
      it.code.arena.Holds id (.declare y i) →
      (it.Ends id ⟨s, k⟩ r ↔
        (∃ w u, it.Ends i ⟨s, k⟩ (.ok w u) ∧
          r = if u.store.bindsLocally it.env y
            then .error (.error (.duplicateDeclaration (it.names.lookup y))) u
            else .ok w { u with store := (u.store.declare it.env y w).2 }) ∨
        ∃ cause u, it.Ends i ⟨s, k⟩ (.error cause u) ∧ r = .error cause u) := by
  intro s t
  obtain ⟨w, rec⟩ := arises.recorded
  have ordered : s.Ordered := rec.fits.ordered
  refine ⟨ordered.outwards, fun c hc => rec.fits.lt_iff.mpr (rec.has hc c rfl).env,
    s.duplicate_iff e x v, fun bound => Store.declare_of_bound bound v, fun free => ?_,
    fun it k id y i r inside hold => rec.ends_declare_iff inside hold⟩
  have writes : s.Writes e x v t := by
    rw [show t = s.bind e x v from Store.declare_of_free free v]
    exact Store.writes_bind there x v
  refine ⟨writes, fun g exposed => writes.resolve_of_exposed exposed,
    fun g y hidden => writes.resolve_of_hidden hidden,
    fun g inner hfree => writes.resolve_of_exposed (ordered.exposed_of_parent inner hfree),
    fun g y hne apart => ?_⟩
  have houtside : e ∉ s.chain g := by
    rcases apart with outer | sibling
    · exact Store.notMem_chain_of_mem outer hne
    · exact ordered.notMem_chain_of_parent_eq sibling hne
  exact writes.resolve_of_hidden fun exposed => houtside exposed.2.mem

/-- A name that is declared in the scope 1 is found from the scope 2 inside it, which was there
before, and not from the scope 0 around it. -/
theorem declare_effect_child :
    let s := ((({} : Store).global.2.child 0).2.child 1).2
    let t := (s.declare 1 .empty .null).2
    t.resolve 2 .empty = some .null ∧ t.resolve 0 .empty = s.resolve 0 .empty ∧
      (t.declare 1 .empty (.int 7)).1 = .duplicate ∧ (t.declare 1 .empty (.int 7)).2 = t := by
  intro s t
  have opened : Holding.Arises _ := .single (.global {})
  have first : Holding.Arises _ := opened.tail (.child (e := 0) (Set.mem_insert _ _))
  have second : Holding.Arises _ := first.tail (.child (e := 1) (Set.mem_insert _ _))
  have holding : Holding.Arises _ := second.tail (.data (v := .null) rfl)
  have declared : Holding.Arises _ :=
    holding.tail (.declare (e := 1) (Set.mem_insert_of_mem _ (Set.mem_insert _ _))
      (Set.mem_insert _ _) .empty)
  obtain ⟨-, -, -, -, hfree, -⟩ := declare_effect second (e := 1) (by decide) .empty .null
  obtain ⟨-, -, -, hinner, hapart⟩ := hfree (by decide)
  obtain ⟨-, -, hduplicate, hbound, -⟩ :=
    declare_effect declared (e := 1) (by decide) .empty (.int 7)
  have houter : 0 ∈ s.chain 1 := by decide +kernel
  refine ⟨hinner 2 rfl (by decide), hapart 0 .empty (by decide) (.inl houter), ?_, ?_⟩
  · exact hduplicate.mpr (by decide)
  · exact hbound (by decide)

end Treewalk
