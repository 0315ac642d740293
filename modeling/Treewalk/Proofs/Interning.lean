import Mathlib.Data.List.Induction
import Treewalk.Proofs.Construction

/-! Interning strings one after the other. The table lists the strings that were met, the empty
string before all others and the rest in the order in which they were first met, and a name is the
place of its string in that list. As the list only grows, a name keeps its string, and names can be
compared in place of strings. All handles of an interner share its table, so that calls through
several of them are one sequence of calls. -/

namespace Treewalk

section Distinct

variable {α β : Type} [DecidableEq α] [DecidableEq β]

/-- The distinct entries of a list, the first of each kind, with one more entry at its end. -/
theorem eraseDups_concat (l : List α) (x : α) :
    (l ++ [x]).eraseDups = if x ∈ l then l.eraseDups else l.eraseDups ++ [x] := by
  rw [List.eraseDups_append]
  by_cases hx : x ∈ l <;> simp [List.removeAll, List.eraseDups_cons, hx]

theorem length_eraseDups_append (l more : List α) :
    l.eraseDups.length ≤ (l ++ more).eraseDups.length := by
  rw [List.eraseDups_append, List.length_append]
  exact Nat.le_add_right _ _

theorem eraseDups_map {f : α → β} (l : List α)
    (inj : ∀ x ∈ l, ∀ y ∈ l, f x = f y → x = y) :
    (l.map f).eraseDups = l.eraseDups.map f := by
  induction l using List.reverseRecOn with
  | nil => rfl
  | append_singleton l x ih =>
    have inner : ∀ y ∈ l, ∀ z ∈ l, f y = f z → y = z := fun y hy z hz =>
      inj y (List.mem_append_left _ hy) z (List.mem_append_left _ hz)
    have hmem : f x ∈ l.map f ↔ x ∈ l := by
      refine ⟨fun h => ?_, List.mem_map_of_mem⟩
      obtain ⟨y, hy, hyx⟩ := List.mem_map.mp h
      rwa [← inj y (List.mem_append_left _ hy) x List.mem_concat_self hyx]
    rw [List.map_append, List.map_singleton, eraseDups_concat, eraseDups_concat, ih inner]
    by_cases hx : x ∈ l
    · rw [if_pos hx, if_pos (hmem.mpr hx)]
    · rw [if_neg hx, if_neg (mt hmem.mp hx), List.map_append, List.map_singleton]

end Distinct

namespace Interner

variable {t t' : Interner} {history : List String} {s : String} {x : Name}

theorem getElem?_toList (t : Interner) (x : Name) : t.toList[x.index]? = t.get? x := by
  simp [toList, get?]

theorem length_toList (t : Interner) : t.toList.length = t.size := by
  simp [toList, size]

/-- A name that the table does not reach has no string. -/
theorem lookup_of_size_le (h : t.size ≤ x.index) : t.lookup x = "<unknown>" := by
  rw [lookup, get?, Array.getElem?_eq_none h, Option.getD_none]

/-- The interner has met the strings of `history`, some of them maybe more than once. -/
structure Met (t : Interner) (history : List String) : Prop where
  inverse : t.WellFormed
  strings : t.toList = history.eraseDups
  fits : t.size ≤ maxIndex + 1

theorem met_initial : initial.Met [""] := ⟨wellFormed_initial, rfl, by decide⟩

namespace Met

theorem exists_index (met : t.Met history) {i : Nat} (h : i < t.size) :
    ∃ x : Name, x.index = i := by
  have hle : i ≤ maxIndex := Nat.le_of_lt_succ (Nat.lt_of_lt_of_le h met.fits)
  exact ⟨⟨.ofNat i⟩, toNat_ofNat_index hle⟩

/-- The strings that were met are those with a name. -/
theorem mem_iff (met : t.Met history) : s ∈ history ↔ ∃ x, t.find? s = some x := by
  rw [← List.mem_eraseDups, ← met.strings, List.mem_iff_getElem?]
  constructor
  · rintro ⟨i, hi⟩
    have hlt : i < t.size := by
      rw [← length_toList]
      exact (List.getElem?_eq_some_iff.mp hi).1
    obtain ⟨x, rfl⟩ := met.exists_index hlt
    rw [getElem?_toList] at hi
    exact ⟨x, (met.inverse s x).mpr hi⟩
  · rintro ⟨x, hx⟩
    refine ⟨x.index, ?_⟩
    rw [getElem?_toList]
    exact (met.inverse s x).mp hx

theorem find?_eq_none (met : t.Met history) (new : s ∉ history) : t.find? s = none := by
  rw [met.mem_iff] at new
  exact Option.eq_none_iff_forall_ne_some.mpr fun x hx => new ⟨x, hx⟩

/-- A string that was met before has its name and leaves the table as it is. -/
theorem intern_known (met : t.Met history) (known : s ∈ history) :
    ∃ x, t.find? s = some x ∧ intern s t = .ok x t := by
  obtain ⟨x, hx⟩ := met.mem_iff.mp known
  exact ⟨x, hx, intern_of_find?_eq_some hx⟩

/-- A new string takes the next place, as long as there is one. -/
theorem intern_new (met : t.Met history) (new : s ∉ history) (room : t.size ≤ maxIndex) :
    intern s t = .ok ⟨.ofNat t.size⟩ (t.push s) :=
  intern_of_find?_eq_none (met.find?_eq_none new) room

/-- One more string, if there is room for the distinct strings. -/
theorem intern (met : t.Met history) (s : String)
    (room : (history ++ [s]).eraseDups.length ≤ maxIndex + 1) :
    ∃ x t', intern s t = .ok x t' ∧ t'.Met (history ++ [s]) ∧ t.Keeps t' ∧
      t'.get? x = some s := by
  rw [eraseDups_concat] at room
  by_cases known : s ∈ history
  · obtain ⟨x, hx, run⟩ := met.intern_known known
    refine ⟨x, t, run, ⟨met.inverse, ?_, met.fits⟩, .refl t, (met.inverse s x).mp hx⟩
    rw [eraseDups_concat, if_pos known, met.strings]
  · rw [if_neg known, ← met.strings, List.length_append, length_toList, List.length_singleton,
      Nat.add_le_add_iff_right] at room
    have run := met.intern_new known room
    obtain ⟨wf, keeps, hx⟩ := intern_keeps met.inverse run
    refine ⟨_, _, run, ⟨wf, ?_, ?_⟩, keeps, hx⟩
    · rw [eraseDups_concat, if_neg known, toList_push, met.strings]
    · rw [size_push]
      omega

/-- Strings one after the other. -/
theorem internAll (met : t.Met history) (calls : List String)
    (room : (history ++ calls).eraseDups.length ≤ maxIndex + 1) :
    ∃ xs t', calls.mapM Interner.intern t = .ok xs t' ∧ t'.Met (history ++ calls) ∧ t.Keeps t' ∧
      List.Forall₂ (fun s x => t'.get? x = some s) calls xs := by
  induction calls generalizing t history with
  | nil =>
    rw [List.append_nil]
    exact ⟨[], t, rfl, met, .refl t, .nil⟩
  | cons s calls ih =>
    rw [List.append_cons] at room ⊢
    have room₁ := Nat.le_trans (length_eraseDups_append (history ++ [s]) calls) room
    obtain ⟨x, t₁, run₁, met₁, keeps₁, hx⟩ := met.intern s room₁
    obtain ⟨xs, t₂, run₂, met₂, keeps₂, hxs⟩ := ih met₁ room
    refine ⟨x :: xs, t₂, ?_, met₂, keeps₁.trans keeps₂, .cons (keeps₂ x s hx) hxs⟩
    rw [List.mapM_cons]
    simp only [Bind.bind, EStateM.bind, run₁, run₂]
    rfl

/-- The distinct names that were given for the strings, in the order in which they were first given,
are the places of the table one after the other. -/
theorem names_eq_range (met : t.Met history) {names : List Name}
    (given : List.Forall₂ (fun s x => t.get? x = some s) history names) :
    names.eraseDups.map Name.index = List.range t.size := by
  have hhistory : history = names.map t.lookup := by
    rw [← List.forall₂_eq_eq_eq, List.forall₂_map_right_iff]
    exact given.imp fun s x hx => (lookup_of_get? hx).symm
  have hget : ∀ x ∈ names, t.get? x = some (t.lookup x) := by
    rw [hhistory, List.forall₂_map_left_iff] at given
    exact List.forall₂_same.mp given
  have inj : ∀ x ∈ names, ∀ y ∈ names, t.lookup x = t.lookup y → x = y := by
    intro x hx y hy same
    exact met.inverse.get?_inj (hget x hx) (same ▸ hget y hy)
  have hstrings : t.toList = names.eraseDups.map t.lookup := by
    rw [met.strings, hhistory, eraseDups_map names inj]
  have hlength : names.eraseDups.length = t.size := by
    rw [← length_toList, hstrings, List.length_map]
  refine List.ext_getElem (by simp [hlength]) fun i hi _ => ?_
  rw [List.length_map] at hi
  rw [List.getElem_map, List.getElem_range]
  -- the name at place `i` has the string at place `i`, and so it is the name of that place
  obtain ⟨x, rfl⟩ := met.exists_index (hlength ▸ hi)
  have hx : t.get? x = some (t.lookup names.eraseDups[x.index]) := by
    rw [← getElem?_toList, hstrings, List.getElem?_map, List.getElem?_eq_getElem hi]
    rfl
  have hmem : names.eraseDups[x.index] ∈ names :=
    List.mem_eraseDups.mp (List.getElem_mem hi)
  rw [← met.inverse.get?_inj hx (hget _ hmem)]

end Met

/-- The interner has answered the calls for the strings `calls` with the names `xs`. Its two tables
are inverse to each other, strings and names are in the order in which they first appeared, and it
is known what each further call would do. -/
structure Answered (t : Interner) (calls : List String) (xs : List Name) : Prop where
  inverse : ∀ s x, t.find? s = some x ↔ t.get? x = some s
  strings : t.toList = ("" :: calls).eraseDups
  empty : t.find? "" = some .empty
  names : (Name.empty :: xs).eraseDups.map Name.index = List.range t.size
  lookups : List.Forall₂ (fun s x => t.lookup x = s) calls xs
  eq_iff : ∀ p ∈ calls.zip xs, ∀ q ∈ calls.zip xs, p.2 = q.2 ↔ p.1 = q.1
  known : ∀ s ∈ "" :: calls, ∃ x, t.find? s = some x ∧ intern s t = .ok x t
  new : ∀ s ∉ "" :: calls, t.size ≤ maxIndex →
    ∃ x t', intern s t = .ok x t' ∧ x.index = t.size ∧ t'.toList = t.toList ++ [s] ∧
      ∀ u, t'.find? u = if s = u then some x else t.find? u
  unknown : ∀ x : Name, t.size ≤ x.index → t.lookup x = "<unknown>"

theorem Met.answered {calls : List String} {xs : List Name} (met : t.Met ("" :: calls))
    (empty : t.get? .empty = some "")
    (given : List.Forall₂ (fun s x => t.get? x = some s) calls xs) : t.Answered calls xs where
  inverse := met.inverse
  strings := met.strings
  empty := (met.inverse "" .empty).mpr empty
  names := met.names_eq_range (.cons empty given)
  lookups := given.imp fun _ _ hx => lookup_of_get? hx
  eq_iff := by
    rintro ⟨s, x⟩ hs ⟨u, y⟩ hu
    have hx : t.get? x = some s := List.forall₂_zip given hs
    have hy : t.get? y = some u := List.forall₂_zip given hu
    constructor
    · rintro rfl
      exact Option.some.inj (hx.symm.trans hy)
    · rintro rfl
      exact met.inverse.get?_inj hx hy
  known _ := met.intern_known
  new s new room :=
    ⟨_, _, met.intern_new new room, index_ofNat_size room, toList_push t s, find?_push t s⟩
  unknown _ := lookup_of_size_le

end Interner

/-- The interner is a growing bijection. Take any calls, with room for the distinct strings among
them, and any point between them. Every call gives a name, the two tables are inverse to each other
at that point, the names given so far are `0, 1, …` in the order of their first appearance, and
every name keeps its string through the calls that follow. -/
theorem interner_grows_bijectively (earlier later : List String)
    (room : ("" :: (earlier ++ later)).eraseDups.length ≤ maxIndex + 1) :
    ∃ xs t ys t', earlier.mapM Interner.intern .initial = .ok xs t ∧
      later.mapM Interner.intern t = .ok ys t' ∧ t.Answered earlier xs ∧
      t'.Answered (earlier ++ later) (xs ++ ys) ∧
      ∀ x : Name, x.index < t.size → t'.lookup x = t.lookup x := by
  have room₁ := Nat.le_trans (length_eraseDups_append ("" :: earlier) later) room
  obtain ⟨xs, t, run, met, keeps, given⟩ := Interner.met_initial.internAll earlier room₁
  obtain ⟨ys, t', run', met', keeps', given'⟩ := met.internAll later room
  have empty : t.get? .empty = some "" := keeps .empty "" rfl
  refine ⟨xs, t, ys, t', run, run', met.answered empty given, ?_, fun x hx => ?_⟩
  · refine met'.answered (keeps' .empty "" empty) (List.rel_append ?_ given')
    exact given.imp fun s x => keeps' x s
  · have hget := Array.getElem?_eq_getElem hx
    rw [Interner.lookup_of_get? hget, Interner.lookup_of_get? (keeps' x _ hget)]

/-- Strings that come back before and after the point, the empty string among them. -/
theorem interner_grows_bijectively_repeats :
    ("" :: (["a", "", "b", "a"] ++ ["b", "c"])).eraseDups.length ≤ maxIndex + 1 ∧
    ∃ xs t ys t', ["a", "", "b", "a"].mapM Interner.intern .initial = .ok xs t ∧
      ["b", "c"].mapM Interner.intern t = .ok ys t' ∧ t.toList = ["", "a", "b"] ∧
      (Name.empty :: xs).eraseDups.map Name.index = [0, 1, 2] ∧ t'.toList = ["", "a", "b", "c"] ∧
      ∀ x : Name, x.index < t.size → t'.lookup x = t.lookup x := by
  have room : ("" :: (["a", "", "b", "a"] ++ ["b", "c"])).eraseDups.length ≤ maxIndex + 1 := by
    decide
  obtain ⟨xs, t, ys, t', run, run', point, final, stays⟩ :=
    interner_grows_bijectively ["a", "", "b", "a"] ["b", "c"] room
  have hsize : t.size = 3 := by
    rw [← Interner.length_toList, point.strings]
    rfl
  refine ⟨room, xs, t, ys, t', run, run', point.strings, ?_, final.strings, stays⟩
  rw [point.names, hsize]
  rfl

end Treewalk
