/-! The binary operators and their tokens. -/

namespace Treewalk

inductive Operator where
  | add
  | sub
  | mul
  | div
  | mod
  | eq
  | lt
  | le
  | gt
  | ge
deriving DecidableEq, Inhabited

namespace Operator

/-- Every operator, in the order in which a table of operators lists them. -/
def all : List Operator := [add, sub, mul, div, mod, gt, ge, lt, le, eq]

/-- The token of an operator. -/
def symbol : Operator → String
  | add => "+"
  | sub => "-"
  | mul => "*"
  | div => "/"
  | mod => "%"
  | eq => "=="
  | lt => "<"
  | le => "<="
  | gt => ">"
  | ge => ">="

/-- The operator with a given token. -/
def ofSymbol? (token : String) : Option Operator := all.find? (·.symbol == token)

/-- Whether the operator computes an integer. -/
def isArithmetic : Operator → Bool
  | add | sub | mul | div | mod => true
  | _ => false

/-- Whether the operator compares two integers by order. -/
def isRelational : Operator → Bool
  | lt | le | gt | ge => true
  | _ => false

theorem ofSymbol?_eq_some_iff {token : String} {op : Operator} :
    ofSymbol? token = some op ↔ op.symbol = token := by
  constructor
  · intro h
    rw [ofSymbol?] at h
    simpa using List.find?_some h
  · rintro rfl
    cases op <;> decide

end Operator

end Treewalk
