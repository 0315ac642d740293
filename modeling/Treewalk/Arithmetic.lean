import Treewalk.EvalError
import Treewalk.Value

/-! The meaning of the binary operators. Integers have 64 bits and wrap around; division goes toward
zero. -/

namespace Treewalk.Operator

/-- The error for an operand that is no integer. -/
def operandError (op : Operator) (v : Value) : EvalError :=
  .typeMismatch ("operator `" ++ op.symbol ++ "`") "int" v.typeName

/-- The meaning of an operator on two integers. -/
def applyInt (op : Operator) (a b : Int64) : Except EvalError Value :=
  match op with
  | add => .ok (.int (a + b))
  | sub => .ok (.int (a - b))
  | mul => .ok (.int (a * b))
  | div => if b = 0 then .error .divisionByZero else .ok (.int (a / b))
  | mod => if b = 0 then .error .moduloByZero else .ok (.int (a % b))
  | eq => .ok (.bool (a == b))
  | lt => .ok (.bool (a < b))
  | le => .ok (.bool (a ≤ b))
  | gt => .ok (.bool (b < a))
  | ge => .ok (.bool (b ≤ a))

/-- The meaning of an operator on two values: equality takes any two values, every other operator
takes integers and reports the leftmost operand that is none. -/
def apply (op : Operator) (left right : Value) : Except EvalError Value :=
  match op with
  | eq => .ok (.bool (left.same right))
  | op =>
    match left with
    | .int a =>
      match right with
      | .int b => op.applyInt a b
      | right => .error (op.operandError right)
    | left => .error (op.operandError left)

end Treewalk.Operator
