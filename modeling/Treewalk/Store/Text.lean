import Treewalk.Store

/-! The form in which diagnostics show a scope with all scopes around it. -/

namespace Treewalk

/-- The bindings of one scope. -/
def Scope.debugBindings (s : Scope) : String :=
  "\x7b" ++ ", ".intercalate (s.bindings.map fun (x, v) => x.debug ++ ": " ++ v.debug) ++ "\x7d"

/-- What stands before the scope around this one. -/
def Scope.debugOpening (s : Scope) : String :=
  "LocalScope(RefCell \x7b value: Scope \x7b bindings: " ++ s.debugBindings ++ ", parent: "

namespace Store

/-- The text of a scope, given what was written before it and what has to follow. -/
def debugFrom (s : Store) (before after : String) (e : ScopeId) : String :=
  let before := before ++ (s.scope e).debugOpening
  match s.outer? e with
  | some ⟨p, _⟩ => s.debugFrom (before ++ "Some(") (after ++ ") \x7d \x7d)") p
  | none => before ++ "None \x7d \x7d)" ++ after
termination_by e

/-- The text of a scope with all scopes around it. -/
def debugScope (s : Store) (e : ScopeId) : String := s.debugFrom "" "" e

/-- The text of an environment, the handle on a scope. -/
def debugEnvironment (s : Store) (e : ScopeId) : String :=
  "Environment \x7b scope: " ++ s.debugScope e ++ " \x7d"

end Store

end Treewalk
