/-! Errors of evaluation and their wording. -/

namespace Treewalk

/-- The causes for which evaluation fails. -/
inductive EvalError where
  | typeMismatch (context expected got : String)
  | notCallable (typeName : String)
  | arityMismatch (expected got : Nat)
  | duplicateDeclaration (name : String)
  | divisionByZero
  | moduloByZero
  | stackOverflow (limit : Nat)
deriving DecidableEq, Inhabited

namespace EvalError

/-- The text of an error. -/
def message : EvalError → String
  | typeMismatch context expected got =>
    "type mismatch in " ++ context ++ ": expected " ++ expected ++ ", got " ++ got
  | notCallable typeName => typeName ++ " is not callable"
  | arityMismatch expected got =>
    "expected " ++ toString expected ++ " argument(s), got " ++ toString got
  | duplicateDeclaration name =>
    "duplicate declaration of `" ++ name ++ "` in the same scope"
  | divisionByZero => "division by zero"
  | moduloByZero => "modulo by zero"
  | stackOverflow limit =>
    "maximum recursion depth exceeded (limit: " ++ toString limit ++ ")"

end EvalError

end Treewalk
