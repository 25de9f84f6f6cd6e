import CodeSearch.Data.Json.Printer
import CodeSearch.Data.Json.Reader
import CodeSearch.Store.Failure
import CodeSearch.Store.Record
import CodeSearch.Table

/-! # Snapshots

A snapshot is the document that a store leaves on disk: the version of its form, the length
of vectors, the metric and the records by their ids.
-/

namespace CodeSearch

structure Snapshot where
  version : Nat
  dimension : Nat
  metric : Metric
  records : Table Record

namespace Snapshot

def toValue (s : Snapshot) : Value :=
  .record
    [("schema_version", .integer s.version), ("dimension", .integer s.dimension),
      ("metric", .text s.metric.name),
      ("records", .record (s.records.entries.map fun (id, r) => (id, r.toValue)))]

/-- The records of a document by their ids. Of two under one id the later counts. -/
def records? (dialect : Dialect) : Value → Option (Table Record)
  | .record fields =>
    let read := fun (field : String × Value) =>
      (Record.ofValue? dialect field.2).map fun r => (field.1, r)
    (fields.mapM read).map Table.ofList
  | _ => none

/-- Versions are words of 32 bits. -/
def versionBound : Nat := 4294967296

def ofValue? (dialect : Dialect) (v : Value) : Option Snapshot :=
  match Value.fields? dialect ["schema_version", "dimension", "metric", "records"] v with
  | some [version, dimension, metric, records] => do
    some
      { version := ← Value.required (Value.natural? versionBound) version
        dimension := ← Value.required Value.word? dimension
        metric := ← Value.required (Value.choice? dialect Metric.ofName?) metric
        records := ← Value.required (records? dialect) records }
  | _ => none

def encode (s : Snapshot) : Bytes := Utf8.encode (Json.toLine s.toValue)

def decode? (bytes : Bytes) : Option Snapshot :=
  ((Utf8.decode? bytes).bind Json.parse?).bind (ofValue? Json.dialect)

/-- The records in some bytes, for a store with vectors of a length. -/
def recordsFor (dimension : Nat) (bytes : Bytes) : Except StoreError (Table Record) :=
  match decode? bytes with
  | none => .error .document
  | some s =>
    if s.version ≠ StoreError.schemaVersion then .error (.schema s.version)
    else if s.dimension ≠ dimension then .error (.dimension dimension s.dimension)
    else .ok s.records

end Snapshot

end CodeSearch
