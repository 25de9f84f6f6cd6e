import CodeSearch.Chunk.Document
import CodeSearch.Data.Json.Printer
import CodeSearch.Embedding.Settings
import CodeSearch.Files.Path
import CodeSearch.Indexing.Stats

/-! # Answers

An answer is what a command that succeeds has found. It is written for people, with notes
beside it, or as a document.
-/

namespace CodeSearch

namespace Chunk

/-- The lines of a chunk behind the name of its source. -/
def location (c : Chunk) : String :=
  if c.startLine = c.endLine then s!"{c.source}:{c.startLine}"
  else s!"{c.source}:{c.startLine}-{c.endLine}"

/-- The scope of a function. -/
def scopeName (c : Chunk) : Option String :=
  if c.kind.isFunction then c.names.className.or c.names.structName else none

/-- The name of a chunk, behind its scope if it has one. -/
def fullName (c : Chunk) : Option String :=
  c.title.map fun name =>
    match c.scopeName with
    | some scope => scope ++ "::" ++ name
    | none => name

/-- Where a chunk is and what it is. -/
def describe (c : Chunk) : String :=
  " ".intercalate ([c.location, c.kind.name] ++ c.fullName.toList)

end Chunk

/-- What is known of a store. -/
structure Status where
  path : Path
  entries : Nat
  dimension : Nat
  metric : Metric
  mode : EmbeddingMode
  model : String

namespace Status

def toValue (s : Status) : Value :=
  .record
    [("store_path", .text s.path.toText), ("entries", .integer s.entries),
      ("dimension", .integer s.dimension), ("metric", .text s.metric.name),
      ("embedding_mode", .text s.mode.name), ("embedding_model", .text s.model)]

def lines (s : Status) : List String :=
  ["store:     " ++ s.path.toText, s!"entries:   {s.entries}",
    s!"dimension: {s.dimension} (" ++ s.metric.name ++ ")",
    "embedding: " ++ s.mode.name ++ " (" ++ s.model ++ ")"]

end Status

inductive Answer where
  | indexed (stats : Stats)
  | found (threshold : Single) (chunks : List Chunk)
  | extracted (chunks : List Chunk)
  | status (s : Status)
  | cleared (removed : Nat) (path : Path)

namespace Answer

/-- The answer with the time that the run took, where that is told. -/
def timed (milliseconds : UInt64) : Answer → Answer
  | indexed stats => indexed { stats with milliseconds }
  | a => a

/-- A result of a search: its rank, what it is, and its lines set in. -/
def foundLines (c : Chunk) (rank : Nat) : List String :=
  let distance := Decimal.fourPlaces (c.distance.getD Binary.nan)
  (s!"{rank + 1}. " ++ c.describe ++ " (distance " ++ distance ++ ")") ::
    (Text.lines c.content).map ("    " ++ ·)

def lines : Answer → List String
  | indexed stats => ["Indexed " ++ stats.toText]
  | found threshold [] => ["No chunks within distance " ++ Decimal.display threshold]
  | found _ chunks => chunks.zipIdx.flatMap fun (c, rank) => foundLines c rank
  | extracted chunks =>
    chunks.map Chunk.describe ++ ((Tally.ofChunks? chunks).map Tally.toText).toList
  | status s => s.lines
  | cleared removed path => [s!"Removed {removed} entries from " ++ path.toText]

def notes : Answer → List String
  | indexed stats => stats.warnings.map ("warning: " ++ ·) ++ stats.errors.map ("error: " ++ ·)
  | _ => []

/-- The exit code behind the lines: the program stops at a sum that is too great. -/
def exit : Answer → Nat
  | extracted chunks => if (Tally.ofChunks? chunks).isSome then 0 else 101
  | _ => 0

/-- The document of an answer, if it has one. -/
def toValue? : Answer → Option Value
  | indexed stats => some stats.toValue
  | found _ chunks | extracted chunks => some (.list (chunks.map Chunk.toValue))
  | status s => some s.toValue
  | cleared _ _ => none

end Answer

/-- What the program writes, and its exit code. -/
structure Report where
  exit : Nat
  out : List String
  err : List String

namespace Report

def text (lines : List String) : String := String.join (lines.map (· ++ "\n"))

/-- An answer that is asked for as a document or as lines. -/
def ofAnswer (json : Bool) (a : Answer) : Report :=
  match if json then a.toValue? else none with
  | some v => ⟨0, [Json.toLines v], []⟩
  | none => ⟨a.exit, a.lines, a.notes⟩

/-- Set in the lines of a cause, the first behind a number if there is one. -/
def causeText (number : Option Nat) (cause : String) : String :=
  let lead := (number.map fun n => s!"    {n}: ").getD "    "
  let space := if number.isSome then "       " else "    "
  lead ++ ("\n" ++ space).intercalate (Text.splitAt '\n' cause)

/-- What went wrong and why. Causes are numbered if there are several. -/
def ofFailure : List String → Report
  | [] => ⟨1, [], []⟩
  | [message] => ⟨1, [], ["Error: " ++ message]⟩
  | [message, cause] => ⟨1, [], ["Error: " ++ message, "", "Caused by:", causeText none cause]⟩
  | message :: causes =>
    ⟨1, [], ["Error: " ++ message, "", "Caused by:"] ++
      causes.zipIdx.map fun (cause, n) => causeText (some n) cause⟩

end Report

end CodeSearch
