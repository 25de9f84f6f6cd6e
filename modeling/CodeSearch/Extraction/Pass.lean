import CodeSearch.Extraction.Candidate
import CodeSearch.Tree.Cursor

/-! # The pass over a tree

A pass visits the nodes of a tree in order. It keeps a candidate unless its span contains
that of a candidate kept before or lies in it; functions may lie in a class or a struct if
members nest. A candidate opens its scope even if it is not kept.
-/

namespace CodeSearch

structure Found where
  node : Tree
  candidate : Candidate

namespace Found

def span (f : Found) : Span := f.node.span

def kind (f : Found) : Kind := f.candidate.kind

/-- A function in the span of a class or a struct, and not the other way round. -/
def isMemberOf (f outer : Found) : Bool :=
  f.kind.isFunction && outer.kind.isContainer && !f.span.contains outer.span

/-- Whether two spans go together: neither contains the other, or `f` nests as a member. -/
def goesWith (nest : Bool) (f earlier : Found) : Bool :=
  (!earlier.span.contains f.span && !f.span.contains earlier.span) ||
    (nest && f.isMemberOf earlier)

/-- The number of line feeds before a byte. -/
def lineFeeds (source : Bytes) (stop : Nat) : Nat := (source.take stop).count 10

def toChunk (source : Bytes) (name : String) (f : Found) : Chunk where
  source := name
  startLine := lineFeeds source f.span.start + 1
  endLine := lineFeeds source f.span.stop + 1
  kind := f.kind
  names := f.candidate.names
  content := Utf8.decodeLossy (f.node.bytes source)
  distance := none

end Found

/-- The state of a pass: the open scopes, and what was kept, the latest first. -/
structure Pass where
  scopes : Scopes
  kept : List Found

namespace Pass

def empty : Pass := ⟨[], []⟩

/-- Whether everything kept so far leaves room for a candidate. -/
def admits (nest : Bool) (kept : List Found) (f : Found) : Bool := kept.all (f.goesWith nest)

def openScope (scopes : Scopes) (f : Found) : Scopes :=
  match f.candidate.opens with
  | none => scopes
  | some (kind, name) => scopes.enter ⟨kind, name, f.span.stop⟩

def visit (s : Setting) (p : Pass) (t : Tree) : Pass :=
  let scopes := p.scopes.leave t.span.start
  match s.classify? scopes t with
  | none => { p with scopes }
  | some c =>
    let f : Found := ⟨t, c⟩
    ⟨openScope scopes f, if admits s.options.nestMembers p.kept f then f :: p.kept else p.kept⟩

def run (s : Setting) (t : Tree) : Pass := t.walk.foldl (visit s) empty

/-- What a pass keeps, in the order of the visits. -/
def found (s : Setting) (t : Tree) : List Found := (run s t).kept.reverse

end Pass

/-- The chunks of a tree by the lines where they start. -/
def Setting.chunks (s : Setting) (name : String) (t : Tree) : List Chunk :=
  ((Pass.found s t).map (Found.toChunk s.source name)).mergeSort fun c d =>
    c.startLine ≤ d.startLine

theorem Setting.mem_chunks {s : Setting} {name : String} {t : Tree} {c : Chunk} :
    c ∈ s.chunks name t ↔ ∃ f ∈ Pass.found s t, f.toChunk s.source name = c := by
  simp [chunks]

end CodeSearch
