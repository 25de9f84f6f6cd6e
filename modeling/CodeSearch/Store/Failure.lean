/-! # Failures of stores -/

namespace CodeSearch

inductive StoreError where
  | notReady
  | embedding (cause : String)
  | batch (shape : String)
  | files (cause : String)
  | document
  | schema (found : Nat)
  | dimension (expected actual : Nat)
  deriving DecidableEq, Repr

namespace StoreError

/-- The version that snapshots have. -/
def schemaVersion : Nat := 1

/-- What is wrong with a document that cannot be read. -/
def documentCause : String := "not a snapshot"

def message : StoreError → String
  | notReady => "Vector store is not ready: call init() before use"
  | embedding cause => "Embedding error: " ++ cause
  | batch shape => "Invalid batch: " ++ shape
  | files cause => "IO error: " ++ cause
  | document => "Serialization error: " ++ documentCause
  | schema found => s!"Unsupported store schema_version {found} (expected {schemaVersion})"
  | dimension expected actual =>
    s!"Invalid vector dimension: expected {expected}, got {actual}"

end StoreError

end CodeSearch
