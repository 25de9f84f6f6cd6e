import CodeSearch.Chunk.Kind
import CodeSearch.Number.Binary

/-! # Chunks

A chunk is the text of one construct with the file and the lines it comes from and the
names it goes by. Its key says which chunks a list of results shows only once: the line
where a chunk ends and its distance from a query are no part of the key.
-/

namespace CodeSearch

/-- The names that a construct goes by. -/
structure Names where
  functionName : Option String
  className : Option String
  structName : Option String
  arrayName : Option String
  deriving DecidableEq

namespace Names

def empty : Names := ⟨none, none, none, none⟩

/-- The name that stands for a construct of a kind. -/
def title (names : Names) : Kind → Option String
  | .function | .testCase => names.functionName
  | .classType => names.className
  | .structType => names.structName
  | .arrayInit => names.arrayName
  | .comment => none

end Names

/-- What is known of a chunk beside its text. Lines count from one and both are covered. -/
structure Metadata where
  source : String
  startLine : Nat
  endLine : Nat
  kind : Kind
  names : Names
  deriving DecidableEq

structure Chunk extends Metadata where
  content : String
  /-- How far the chunk is from the query that found it. -/
  distance : Option Single

/-- What tells results apart. -/
structure Key where
  content : String
  source : String
  startLine : Nat
  kind : Kind
  names : Names
  deriving DecidableEq

namespace Chunk

def key (c : Chunk) : Key := ⟨c.content, c.source, c.startLine, c.kind, c.names⟩

def title (c : Chunk) : Option String := c.names.title c.kind

/-- The number of lines. A chunk that ends before it starts has one. -/
def lines (c : Chunk) : Nat := c.endLine - c.startLine + 1

/-- The number of lines as a word, unless there are too many for one. -/
def lineCount? (c : Chunk) : Option Nat := fit? c.lines

/-- Distances are compared as numbers, so the zeros are equal and NaN equals nothing. -/
def sameDistance : Option Single → Option Single → Bool
  | none, none => true
  | some x, some y => x.same y
  | _, _ => false

/-- Equal in every field, with distances compared as numbers. -/
def same (c d : Chunk) : Bool :=
  c.toMetadata = d.toMetadata && c.content = d.content && sameDistance c.distance d.distance

def located (x : Single) (c : Chunk) : Chunk := { c with distance := some x }

end Chunk

/-- How many chunks there are of each sort, and how many lines they have. -/
structure Tally where
  chunks : Nat
  lines : Nat
  functions : Nat
  tests : Nat
  types : Nat
  arrays : Nat
  comments : Nat
  deriving DecidableEq

namespace Tally

def ofKind (k : Kind) (chunks : List Chunk) : Nat := (chunks.filter fun c => c.kind = k).length

/-- Add the lines of chunks to some, one chunk after the other, as long as the sum is a word. -/
def addLines? (lines : Nat) (chunks : List Chunk) : Option Nat :=
  chunks.foldlM (fun sum c => do fit? (sum + (← c.lineCount?))) lines

/-- The tally of a list of chunks, unless there are too many lines for a word. -/
def ofChunks? (chunks : List Chunk) : Option Tally := do
  some
    { chunks := chunks.length
      lines := ← addLines? 0 chunks
      functions := ofKind .function chunks
      tests := ofKind .testCase chunks
      types := ofKind .classType chunks + ofKind .structType chunks
      arrays := ofKind .arrayInit chunks
      comments := ofKind .comment chunks }

def toText (t : Tally) : String :=
  " | ".intercalate
    [s!"Chunks: {t.chunks}", s!"Lines: {t.lines}", s!"Functions: {t.functions}",
      s!"Tests: {t.tests}", s!"Types: {t.types}", s!"Arrays: {t.arrays}",
      s!"Comments: {t.comments}"]

end Tally

theorem Chunk.key_eq_iff {c d : Chunk} :
    c.key = d.key ↔ c.content = d.content ∧ c.source = d.source ∧ c.startLine = d.startLine ∧
      c.kind = d.kind ∧ c.names = d.names := by
  simp [key]

end CodeSearch
