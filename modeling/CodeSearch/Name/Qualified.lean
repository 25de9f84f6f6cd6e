import CodeSearch.Text.Blank
import CodeSearch.Text.Utf8
import CodeSearch.Tree.Basic

/-! # Qualified names

A qualified name is a chain of nodes, each of which may name a scope, that ends in the
name itself. Arguments of templates are no part of either.
-/

namespace CodeSearch

def Tree.bytes (t : Tree) (source : Bytes) : Bytes := t.span.slice source

def Tree.text? (t : Tree) (source : Bytes) : Option String := Utf8.decode? (t.bytes source)

/-- The text that a node covers without blanks at the ends. -/
def Tree.trimmed? (t : Tree) (source : Bytes) : Option String :=
  (t.text? source).bind fun s => Text.nonempty? (Text.trim s)

structure QualifiedName where
  /-- The names of the scopes, joined by double colons. -/
  scope : Option String
  leaf : String
  deriving DecidableEq

namespace QualifiedName

def isLink (t : Tree) : Bool := t.kind = "qualified_identifier"

def next? (t : Tree) : Option Tree := if isLink t then t.field? "name" else none

def isTemplate (t : Tree) : Bool :=
  t.kind = "template_type" || t.kind = "template_function" || t.kind = "template_method"

/-- The node that spells a name; that of a template is in its field `name`. -/
def spelling? (t : Tree) : Option Tree := if isTemplate t then t.field? "name" else some t

/-- A name with one space for each run of blanks. -/
def plain? (source : Bytes) (t : Tree) : Option String :=
  (spelling? t).bind fun u => (u.text? source).bind fun s => Text.nonempty? (Text.collapse s)

/-- The name that a chain of nodes spells. -/
def ofChain? (source : Bytes) (chain : List Tree) : Option QualifiedName := do
  let last ← chain.getLast?
  guard (!isLink last)
  let scopes ← (chain.dropLast.filterMap (·.field? "scope")).mapM (plain? source)
  let leaf ← plain? source last
  some ⟨if scopes.isEmpty then none else some ("::".intercalate scopes), leaf⟩

/-- The name at a node, if every link leads on and no part of the name is empty. -/
def ofTree? (source : Bytes) (t : Tree) : Option QualifiedName := ofChain? source (t.chain next?)

end QualifiedName

end CodeSearch
