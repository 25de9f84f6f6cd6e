import CodeSearch.Tree.Basic

/-! # Declarators

The declarator of a function wraps its name in further declarators. The name ends the
chain of what they wrap, and there is none unless the chain passes a function declarator.
-/

namespace CodeSearch

namespace Declarator

def isFunction (t : Tree) : Bool := t.kind = "function_declarator"

def isWrapper (t : Tree) : Bool :=
  isFunction t || t.kind = "pointer_declarator" || t.kind = "reference_declarator" ||
    t.kind = "parenthesized_declarator" || t.kind = "attributed_declarator"

def lastNamed? (t : Tree) : Option Tree := (t.children.filter fun c => c.label.named).getLast?

/-- What a wrapper wraps: what is in the field `declarator`, else the last named child. -/
def inner? (t : Tree) : Option Tree := (t.field? "declarator").or (lastNamed? t)

def next? (t : Tree) : Option Tree := if isWrapper t then inner? t else none

/-- The node that names a function. -/
def name? (t : Tree) : Option Tree :=
  let chain := t.chain next?
  chain.getLast?.bind fun last =>
    if !isWrapper last && chain.any isFunction then some last else none

end Declarator

end CodeSearch
