/-! Names: the numbers under which an interner keeps its strings. -/

namespace Treewalk

/-- A name is the position of a string in an interner. -/
structure Name where
  raw : UInt32
deriving DecidableEq, Inhabited

namespace Name

/-- The name of the empty string in every interner. -/
def empty : Name := ⟨0⟩

/-- The position as a table index. -/
def index (x : Name) : Nat := x.raw.toNat

/-- The form in which diagnostics show a name. -/
def debug (x : Name) : String := "Name(" ++ toString x.index ++ ")"

theorem index_injective {x y : Name} (h : x.index = y.index) : x = y := by
  cases x; cases y; simpa [index, UInt32.toNat_inj] using h

@[simp] theorem index_empty : empty.index = 0 := rfl

end Name

end Treewalk
