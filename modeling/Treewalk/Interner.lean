import Std.Data.HashMap
import Treewalk.Name
import Treewalk.Refusal

/-! Interners: tables that give every string a name and every name its string. The table of strings
only grows, so a name keeps its meaning. -/

namespace Treewalk

/-- The strings in the order in which they were first met, and the name of each. -/
structure Interner where
  strings : Array String
  index : Std.HashMap String Name

namespace Interner

/-- The interner that knows only the empty string. -/
def initial : Interner where
  strings := #[""]
  index := Std.HashMap.emptyWithCapacity.insert "" Name.empty

instance : Inhabited Interner := ⟨initial⟩

/-- The number of strings, the empty string included. -/
def size (t : Interner) : Nat := t.strings.size

/-- Whether nothing but the empty string was interned. -/
def isEmpty (t : Interner) : Bool := t.size ≤ 1

/-- The name of a string that is known already. -/
def find? (t : Interner) (s : String) : Option Name := t.index[s]?

/-- The string of a name, if the table reaches that far. -/
def get? (t : Interner) (x : Name) : Option String := t.strings[x.index]?

/-- The string of a name, for messages. -/
def lookup (t : Interner) (x : Name) : String := (t.get? x).getD "<unknown>"

/-- The table with one more string at its end. -/
def push (t : Interner) (s : String) : Interner where
  strings := t.strings.push s
  index := t.index.insert s ⟨.ofNat t.strings.size⟩

/-- The name of a string: the one it has, or else the next position, which has to fit in 32 bits. -/
def intern (s : String) : EStateM Refusal Interner Name := fun t =>
  match t.find? s with
  | some x => .ok x t
  | none =>
    if t.size ≤ maxIndex then .ok ⟨.ofNat t.size⟩ (t.push s) else .error (.strings t.size) t

/-- All strings in the order of their names. -/
def toList (t : Interner) : List String := t.strings.toList

@[simp] theorem size_push (t : Interner) (s : String) : (t.push s).size = t.size + 1 := by
  simp [size, push]

@[simp] theorem toList_push (t : Interner) (s : String) : (t.push s).toList = t.toList ++ [s] := by
  simp [toList, push]

theorem find?_push (t : Interner) (s u : String) :
    (t.push s).find? u = if s = u then some ⟨.ofNat t.size⟩ else t.find? u := by
  simp [find?, push, size, Std.HashMap.getElem?_insert]

/-- A known string keeps its name, and the table stays as it is. -/
theorem intern_of_find?_eq_some {t : Interner} {s : String} {x : Name} (h : t.find? s = some x) :
    intern s t = .ok x t := by
  simp [intern, h]

/-- An unknown string takes the next position. -/
theorem intern_of_find?_eq_none {t : Interner} {s : String} (h : t.find? s = none)
    (room : t.size ≤ maxIndex) : intern s t = .ok ⟨.ofNat t.size⟩ (t.push s) := by
  simp [intern, h, room]

end Interner

end Treewalk
