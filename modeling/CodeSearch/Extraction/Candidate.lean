import CodeSearch.Chunk.Basic
import CodeSearch.Extraction.Declarator
import CodeSearch.Extraction.Options
import CodeSearch.Extraction.Query
import CodeSearch.Extraction.Scope
import CodeSearch.Name.Qualified
import CodeSearch.Name.TestName

/-! # Candidates

A candidate is a construct that may become a chunk: its kind, its names and the scope that
it opens. A node is no candidate if its construct has no name to go by, comments apart.
-/

namespace CodeSearch

structure Candidate where
  kind : Kind
  names : Names
  /-- The kind and the name of the scope that the construct opens. -/
  opens : Option (ScopeKind × String)
  deriving DecidableEq

/-- What the classification of a node depends on beside the node. -/
structure Setting where
  options : Options
  language : Language
  source : Bytes

namespace Candidate

def ofClass (name : String) : Candidate :=
  ⟨.classType, { Names.empty with className := some name }, some (.classType, name)⟩

def ofStruct (name : String) : Candidate :=
  ⟨.structType, { Names.empty with structName := some name }, some (.structType, name)⟩

def ofArray (name : String) : Candidate :=
  ⟨.arrayInit, { Names.empty with arrayName := some name }, none⟩

def ofComment : Candidate := ⟨.comment, Names.empty, none⟩

/-- A function or, by its name, a test case. -/
def ofFunction (name : String) (owner : Option (ScopeKind × String)) : Candidate where
  kind := if isTestName name then .testCase else .function
  names :=
    match owner with
    | none => { Names.empty with functionName := some name }
    | some (.classType, scope) =>
      { Names.empty with functionName := some name, className := some scope }
    | some (.structType, scope) =>
      { Names.empty with functionName := some name, structName := some scope }
  opens := none

end Candidate

namespace Setting

/-- The kind that the language gives to every scope. -/
def languageScope (s : Setting) : ScopeKind :=
  if s.language.hasClasses then .classType else .structType

/-- The kind that a scope counts as; `known` is its own kind. -/
def scopeKind (s : Setting) (known : Option ScopeKind) : ScopeKind :=
  match s.options.attribution with
  | .byLanguage => s.languageScope
  | .byScopeKind => known.getD s.languageScope

/-- The scope that a function belongs to: that of its own name, else the innermost one. -/
def owner (s : Setting) (scopes : Scopes) (name : QualifiedName) : Option (ScopeKind × String) :=
  match name.scope with
  | some scope => some (s.scopeKind none, scope)
  | none => scopes.innermost?.map fun frame => (s.scopeKind (some frame.kind), frame.name)

/-- The text that a pattern takes out of a node under a name. -/
def captured? (s : Setting) (p : Pattern) (c : Capture) (t : Tree) : Option String :=
  (p.match? t).bind fun m => (m.capture? c).bind fun u => u.trimmed? s.source

def classType? (s : Setting) (t : Tree) : Option Candidate :=
  if s.language.hasClasses then
    (s.captured? Query.classDefinition .className t).map Candidate.ofClass
  else none

def structType? (s : Setting) (c : Capture) (t : Tree) : Option Candidate :=
  (s.captured? Query.struct c t).map Candidate.ofStruct

def array? (s : Setting) (t : Tree) : Option Candidate :=
  (s.captured? Query.array .arrayName t).map Candidate.ofArray

def comment? (t : Tree) : Option Candidate := (Query.comment.match? t).map fun _ => .ofComment

def function? (s : Setting) (scopes : Scopes) (t : Tree) : Option Candidate := do
  let m ← Query.function.match? t
  let declarator ← m.capture? .functionDeclarator
  let node ← Declarator.name? declarator
  let name ← QualifiedName.ofTree? s.source node
  some (.ofFunction name.leaf (s.owner scopes name))

/-- The candidate at a node, given the scopes around it. -/
def classify? (s : Setting) (scopes : Scopes) (t : Tree) : Option Candidate :=
  if t.kind = "class_specifier" then s.classType? t
  else if t.kind = "struct_specifier" then s.structType? .structName t
  else if t.kind = "type_definition" then s.structType? .structAlias t
  else if t.kind = "function_definition" then s.function? scopes t
  else if t.kind = "declaration" then s.array? t
  else if t.kind = "comment" then comment? t
  else none

end Setting

end CodeSearch
