import CodeSearch.Data.Value

/-! # Counts of an indexing run -/

namespace CodeSearch

/-- What a run did. The counts are words of 64 bits. -/
structure Stats where
  files : UInt64
  chunks : UInt64
  written : UInt64
  failed : UInt64
  milliseconds : UInt64
  warnings : List String
  errors : List String
  deriving DecidableEq

namespace Stats

def empty : Stats := ⟨0, 0, 0, 0, 0, [], []⟩

instance : Inhabited Stats := ⟨empty⟩

def addWarning (s : Stats) (w : String) : Stats := { s with warnings := s.warnings ++ [w] }

def addError (s : Stats) (e : String) : Stats := { s with errors := s.errors ++ [e] }

/-- Add the counts and the messages of another run, but not its time. -/
def merge (s t : Stats) : Stats where
  files := s.files + t.files
  chunks := s.chunks + t.chunks
  written := s.written + t.written
  failed := s.failed + t.failed
  milliseconds := s.milliseconds
  warnings := s.warnings ++ t.warnings
  errors := s.errors ++ t.errors

def isClean (s : Stats) : Bool := s.failed = 0 && s.errors.isEmpty

def toText (s : Stats) : String :=
  s!"{s.files} files, {s.chunks} chunks, {s.written} batches written, {s.failed} failed, " ++
    s!"{s.warnings.length} warnings in {s.milliseconds}ms"

def fieldNames : List String :=
  ["files", "chunks", "batches_written", "batches_failed", "time_ms", "warnings", "errors"]

/-- A count that must be there. -/
def readCount (v : Option Value) : Option UInt64 :=
  (Value.required Value.word? v).map UInt64.ofNat

/-- The messages that must be there. -/
def readMessages (v : Option Value) : Option (List String) :=
  Value.required (Value.list? Value.text?) v

def ofFields? : List (Option Value) → Option Stats
  | [files, chunks, written, failed, milliseconds, warnings, errors] => do
    some ⟨← readCount files, ← readCount chunks, ← readCount written, ← readCount failed,
      ← readCount milliseconds, ← readMessages warnings, ← readMessages errors⟩
  | _ => none

def ofValue? (dialect : Dialect) (v : Value) : Option Stats :=
  (Value.fields? dialect fieldNames v).bind ofFields?

def count (n : UInt64) : Value := .integer n.toNat

def toValue (s : Stats) : Value :=
  .record
    [("files", count s.files), ("chunks", count s.chunks), ("batches_written", count s.written),
      ("batches_failed", count s.failed), ("time_ms", count s.milliseconds),
      ("warnings", .list (s.warnings.map .text)), ("errors", .list (s.errors.map .text))]

end Stats

end CodeSearch
