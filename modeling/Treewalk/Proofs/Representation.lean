import Treewalk.Arithmetic
import Treewalk.Interpreter
import Treewalk.Proofs.Denotation
import Treewalk.Proofs.Relations
import Treewalk.Proofs.Scopes

/-! How stores represent memories: names stand for strings, links for lists of scopes, and numbers
of nodes for trees. Each operation on a store does to what the store represents what the operation
on memories of the same purpose does. -/

theorem List.findSome?_cons_eq_or {α β : Type} (f : α → Option β) (a : α) (l : List α) :
    (a :: l).findSome? f = (f a).or (l.findSome? f) := by
  rw [List.findSome?_cons]
  cases f a <;> rfl

namespace Treewalk

/-- The closure `c` of the store `s` represents `f`. -/
structure Closure.Represents (names : Interner) (s : Store) (c : Closure) (f : Lambda) : Prop where
  id : c.id = f.id
  params : List.Forall₂ (fun x p => names.get? x = some p) c.params f.params
  body : f.body.Denotes names c.code.arena c.body
  env : s.Around c.env f.env

/-- The value of the store `s` represents the datum. -/
inductive Value.Represents (names : Interner) (s : Store) : Value → Datum → Prop where
  | int {n : Int64} : Value.Represents names s (.int n) (.int n)
  | bool {b : Bool} : Value.Represents names s (.bool b) (.bool b)
  | null : Value.Represents names s .null .null
  | closure {c : Closure} {f : Lambda} (h : c.Represents names s f) :
      Value.Represents names s (.closure c) (.lambda f)

/-- The store represents the scopes and closures of the memory. -/
structure Store.Represents (names : Interner) (s : Store) (μ : Memory) : Prop where
  size : s.scopes.size = μ.scopes.length
  lambdas : s.nextClosure = μ.lambdas
  vars : ∀ e x p, names.get? x = some p →
    Option.Rel (Value.Represents names s) (s.local? e x) (μ.vars e p)
  bound : ∀ e x v, s.local? e x = some v → ∃ p, names.get? x = some p
  named : ∀ e p d, μ.vars e p = some d → ∃ x, names.get? x = some p

/-- The state represents the memory, all of whose lines were written to the sink `k`. -/
structure State.Represents (names : Interner) (k : Sink) (s : State) (μ : Memory) : Prop where
  store : s.store.Represents names μ
  sink : s.sink = μ.output.foldl Sink.writeLine k

namespace Memory

theorem vars_set (μ : Memory) (b e : ScopeId) (x y : String) (d : Datum) :
    (μ.set b x d).vars e y =
      if e = b ∧ b < μ.scopes.length ∧ y = x then some d else μ.vars e y := by
  simp only [vars, set, List.getElem?_modify]
  by_cases hb : b = e
  · subst hb
    by_cases hlt : b < μ.scopes.length
    · by_cases hy : y = x
      · simp [hlt, hy]
      · simp [hlt, hy]
    · simp [hlt]
  · simp [hb, Ne.symm hb]

@[simp] theorem length_set (μ : Memory) (b : ScopeId) (x : String) (d : Datum) :
    (μ.set b x d).scopes.length = μ.scopes.length := by
  simp [set]

@[simp] theorem output_assign (μ : Memory) (env : List ScopeId) (x : String) (d : Datum) :
    (μ.assign env x d).output = μ.output := by
  unfold assign
  split <;> rfl

theorem resolve_cons (μ : Memory) (e : ScopeId) (env : List ScopeId) (x : String) :
    μ.resolve (e :: env) x = (μ.vars e x).or (μ.resolve env x) :=
  List.findSome?_cons_eq_or _ e env

theorem target?_cons (μ : Memory) (e : ScopeId) (env : List ScopeId) (x : String) :
    μ.target? (e :: env) x =
      if (μ.vars e x).isSome then some e else (μ.target? env x).or (some e) := by
  have hlast : (e :: env).getLast? = env.getLast?.or (some e) := by
    rw [List.getLast?_cons]
    cases env.getLast? <;> rfl
  unfold target?
  rw [List.find?_cons, hlast]
  cases (μ.vars e x).isSome with
  | true => rfl
  | false => exact (Option.or_assoc ..).symm

@[simp] theorem length_push (μ : Memory) : μ.push.scopes.length = μ.scopes.length + 1 := by
  simp [push]

theorem vars_push (μ : Memory) (e : ScopeId) : μ.push.vars e = μ.vars e := by
  simp only [vars, push, List.getElem?_append]
  split
  · rfl
  next h =>
    rw [List.getElem?_eq_none (Nat.le_of_not_lt h)]
    cases e - μ.scopes.length <;> rfl

end Memory

theorem Closure.Represents.grows {names : Interner} {s s' : Store} {c : Closure} {f : Lambda}
    (h : c.Represents names s f) (hg : s.Grows s') : c.Represents names s' f :=
  ⟨h.id, h.params, h.body, h.env.grows hg⟩

namespace Value.Represents

variable {names : Interner} {s s' : Store} {v v' : Value} {d d' : Datum}

theorem grows (h : v.Represents names s d) (hg : s.Grows s') : v.Represents names s' d := by
  cases h with
  | int => exact .int
  | bool => exact .bool
  | null => exact .null
  | closure h => exact .closure (h.grows hg)

theorem typeName (h : v.Represents names s d) : v.typeName = d.typeName := by
  cases h <;> rfl

theorem display (h : v.Represents names s d) : v.display = d.display := by
  cases h with
  | closure h => rw [Value.display, Datum.display, Closure.arity, h.params.length_eq]
  | @bool b => cases b <;> rfl
  | _ => rfl

theorem same (h : v.Represents names s d) (h' : v'.Represents names s d') :
    v.same v' = d.same d' := by
  cases h with
  | @closure c f h =>
    cases h' with
    | @closure c' f' h' =>
      show (c.id == c'.id) = (f.id == f'.id)
      rw [h.id, h'.id]
    | _ => rfl
  | _ => cases h' <;> rfl

end Value.Represents

/-! ### Operators -/

namespace Operator

variable {names : Interner} {s : Store} {v v' : Value} {d d' : Datum}

theorem applyInt_alike (op : Operator) (a b : Int64) :
    ExceptAlike (Value.Represents names s) (op.applyInt a b) (op.onInts a.toInt b.toInt) := by
  have hzero : b.toInt = 0 ↔ b = 0 := Int64.toInt_inj (y := 0)
  cases op <;> simp only [applyInt, onInts]
  case add => rw [Int64.ofInt_add, Int64.ofInt_toInt, Int64.ofInt_toInt]; exact .ok .int
  case sub => rw [Int64.ofInt_sub, Int64.ofInt_toInt, Int64.ofInt_toInt]; exact .ok .int
  case mul => rw [Int64.ofInt_mul, Int64.ofInt_toInt, Int64.ofInt_toInt]; exact .ok .int
  case div =>
    have hdiv : Int64.ofInt (a.toInt.tdiv b.toInt) = a / b := by
      rw [← Int64.toInt_inj, Int64.toInt_ofInt, Int64.toInt_div]
    by_cases hb : b = 0
    · rw [if_pos hb, if_pos (hzero.mpr hb)]
      exact .error
    · rw [if_neg hb, if_neg (mt hzero.mp hb), hdiv]
      exact .ok .int
  case mod =>
    have hmod : Int64.ofInt (a.toInt.tmod b.toInt) = a % b := by
      rw [← Int64.toInt_mod, Int64.ofInt_toInt]
    by_cases hb : b = 0
    · rw [if_pos hb, if_pos (hzero.mpr hb)]
      exact .error
    · rw [if_neg hb, if_neg (mt hzero.mp hb), hmod]
      exact .ok .int
  case eq =>
    rw [show (a == b) = decide (a.toInt = b.toInt) by simp [Int64.toInt_inj, beq_eq_decide]]
    exact .ok .bool
  case lt => rw [decide_eq_decide.mpr Int64.lt_iff_toInt_lt]; exact .ok .bool
  case le => rw [decide_eq_decide.mpr Int64.le_iff_toInt_le]; exact .ok .bool
  case gt => rw [decide_eq_decide.mpr Int64.lt_iff_toInt_lt]; exact .ok .bool
  case ge => rw [decide_eq_decide.mpr Int64.le_iff_toInt_le]; exact .ok .bool

theorem apply_alike {op : Operator} {token : String} (known : ofToken? token = some op)
    (h : v.Represents names s d) (h' : v'.Represents names s d') :
    ExceptAlike (Value.Represents names s) (op.apply v v') (op.onData token d d') := by
  obtain rfl := ofToken?_eq_some_iff.mp known
  unfold apply onData
  by_cases hop : op = eq
  · subst hop
    rw [if_pos rfl, h.same h']
    exact .ok .bool
  · rw [if_neg hop]
    split
    next => exact absurd rfl hop
    next =>
      cases h with
      | int =>
        cases h' with
        | int => exact applyInt_alike op _ _
        | _ => exact .error
      | _ => exact .error

end Operator

/-! ### Operations on stores -/

theorem Value.Represents.getD {names : Interner} {s : Store} {v : Option Value} {d : Option Datum}
    (h : Option.Rel (Value.Represents names s) v d) :
    (v.getD .null).Represents names s (d.getD .null) := by
  cases h with
  | some h => exact h
  | none => exact .null

namespace Store.Represents

variable {names : Interner} {s : Store} {μ : Memory} {e : ScopeId} {env : List ScopeId} {x : Name}
  {p : String} {v : Value} {d : Datum}

theorem bindsLocally (h : s.Represents names μ) (hx : names.get? x = some p) (e : ScopeId) :
    s.bindsLocally e x = (μ.vars e p).isSome :=
  (h.vars e x p hx).isSome_eq

theorem resolve (h : s.Represents names μ) (around : s.Around e env)
    (hx : names.get? x = some p) :
    Option.Rel (Value.Represents names s) (s.resolve e x) (μ.resolve env p) := by
  rw [resolve_eq_findSome?, around.chain]
  clear around
  induction env with
  | nil => exact .none
  | cons b env ih =>
    rw [List.findSome?_cons_eq_or, Memory.resolve_cons]
    exact (h.vars b x p hx).or fun _ => ih

theorem bind (wf : names.WellFormed) (h : s.Represents names μ) (hx : names.get? x = some p)
    (hv : v.Represents names s d) (b : ScopeId) :
    (s.bind b x v).Represents names (μ.set b p d) where
  size := by rw [size_bind, Memory.length_set, h.size]
  lambdas := h.lambdas
  vars e y q hy := by
    have hnames : y = x ↔ q = p := by
      constructor
      · rintro rfl
        exact Option.some.inj (hy.symm.trans hx)
      · rintro rfl
        exact wf.get?_inj hy hx
    rw [local?_bind, Memory.vars_set]
    simp only [hnames, h.size]
    split
    · exact .some (hv.grows (.bind s b x v))
    · exact (h.vars e y q hy).imp fun _ _ h => h.grows (.bind s b x v)
  bound e y w hw := by
    rw [local?_bind] at hw
    split at hw
    next hy => exact ⟨p, hy.2.2 ▸ hx⟩
    next => exact h.bound e y w hw
  named e q d' hd := by
    rw [Memory.vars_set] at hd
    split at hd
    next hq => exact ⟨x, hq.2.2 ▸ hx⟩
    next => exact h.named e q d' hd

theorem update (wf : names.WellFormed) (h : s.Represents names μ) (around : s.Around e env)
    (hx : names.get? x = some p) (hv : v.Represents names s d) :
    (s.update e x v).2.Represents names (μ.assign env p d) := by
  have hbinder : s.binder? x e = env.find? fun b => (μ.vars b p).isSome := by
    rw [binder?_eq_find?, around.chain]
    congr 1
    funext b
    exact h.bindsLocally hx b
  have hroot : env.getLast? = some (s.root e) := by rw [← around.chain, getLast?_chain]
  unfold Store.update Memory.assign Memory.target?
  rw [hbinder, hroot]
  cases env.find? fun b => (μ.vars b p).isSome with
  | some b => exact h.bind wf hx hv b
  | none => exact h.bind wf hx hv (s.root e)

theorem child (h : s.Represents names μ) (e : ScopeId) : (s.child e).2.Represents names μ.push where
  size := by
    rw [Store.child, size_alloc, h.size]
    simp [Memory.push]
  lambdas := h.lambdas
  vars b x p hx := by
    rw [local?_alloc_child, Memory.vars_push]
    exact (h.vars b x p hx).imp fun _ _ h => h.grows (.child s e)
  bound b x v hv := by
    rw [local?_alloc_child] at hv
    exact h.bound b x v hv
  named b p d hd := by
    rw [Memory.vars_push] at hd
    exact h.named b p d hd

theorem newClosure (h : s.Represents names μ) (params : List Name) (body : NodeId) (env : ScopeId)
    (code : Code) : (s.newClosure params body env code).2.Represents names μ.addLambda where
  size := h.size
  lambdas := congrArg (· + 1) h.lambdas
  vars e x p hx := (h.vars e x p hx).imp fun _ _ h => h.grows (.newClosure s params body env code)
  bound := h.bound
  named := h.named

/-- The closure made of a function literal. -/
theorem lambda {ys : List Name} {params : List String} {body : Term} {i : NodeId} {code : Code}
    (h : s.Represents names μ) (around : s.Around e env)
    (hys : List.Forall₂ (fun y p => names.get? y = some p) ys params)
    (hi : body.Denotes names code.arena i) :
    (s.newClosure ys i e code).1.Represents names (s.newClosure ys i e code).2
      ⟨μ.lambdas, params, body, env⟩ :=
  ⟨h.lambdas, hys, hi, around.grows (.newClosure s ys i e code)⟩

end Store.Represents

end Treewalk
