/-! # Enclosing scopes

While a walk goes on, the scopes that are still open are kept with the innermost first.
A scope is left at the first node that starts where it stops or after.
-/

namespace CodeSearch

inductive ScopeKind where
  | classType
  | structType
  deriving DecidableEq, Repr

namespace ScopeKind

def name : ScopeKind → String
  | classType => "class"
  | .structType => "struct"

def ofName? (s : String) : Option ScopeKind := [.classType, .structType].find? fun k => name k = s

end ScopeKind

structure Scope where
  kind : ScopeKind
  name : String
  /-- The byte after the last one in the scope. -/
  stop : Nat
  deriving DecidableEq

/-- The open scopes, the innermost first. -/
abbrev Scopes := List Scope

namespace Scopes

/-- Leave the innermost scopes that stop by the given byte. -/
def leave (start : Nat) (scopes : Scopes) : Scopes := scopes.dropWhile fun s => s.stop ≤ start

def enter (s : Scope) (scopes : Scopes) : Scopes := s :: scopes

def innermost? (scopes : Scopes) : Option Scope := scopes.head?

end Scopes

end CodeSearch
