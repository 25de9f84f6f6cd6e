import CodeSearch.Files.Change
import CodeSearch.Store.Index
import CodeSearch.Store.Snapshot

/-! # Stores

A store serves queries from memory. It may have a snapshot on disk, which several stores
may share: a flush reads it again, puts the records that were added since the last flush
over it, and writes it back. A store that fails keeps the state that it had.
-/

namespace CodeSearch

/-- What a store holds once it is ready. -/
structure Holdings where
  records : Table Record
  index : Index
  /-- The ids added since the last flush. -/
  dirty : Table Unit

structure Store where
  /-- Where the snapshot is; a store in memory has none. -/
  path : Option Path
  dimension : Nat
  metric : Metric
  holdings : Option Holdings

/-- A step that may change files and may fail. -/
abbrev StoreAction (α : Type) := ExceptT StoreError (StateM FileSystem) α

namespace StoreAction

/-- Read from the files. -/
def query {α : Type} (f : FileSystem → Except FileError α) : StoreAction α := fun fs =>
  match f fs with
  | .ok a => (.ok a, fs)
  | .error e => (.error (.files e.message), fs)

/-- Change the files, or leave them as they are. -/
def change (f : FileSystem → Except FileError FileSystem) : StoreAction Unit := fun fs =>
  match f fs with
  | .ok after => (.ok (), after)
  | .error e => (.error (.files e.message), fs)

/-- Change the files in several steps. -/
def changes (f : FileSystem → Except FileError Unit × FileSystem) : StoreAction Unit := fun fs =>
  match f fs with
  | (.ok _, after) => (.ok (), after)
  | (.error e, after) => (.error (.files e.message), after)

/-- Check something without the files. -/
def check {α : Type} (x : Except StoreError α) : StoreAction α := fun fs => (x, fs)

end StoreAction

namespace Store

/-- A store that is not ready yet. -/
def closed (path : Option Path) (dimension : Nat) (metric : Metric) : Store :=
  ⟨path, dimension, metric, none⟩

def ready (s : Store) : Except StoreError Holdings :=
  match s.holdings with
  | none => .error .notReady
  | some h => .ok h

def indexOf (s : Store) (records : Table Record) : Except StoreError Index :=
  (Index.empty s.dimension s.metric).upsertAll
    (records.entries.map fun (id, r) => (id, r.vector))

/-- The records on disk; there are none without a snapshot. -/
def load (s : Store) (p : Path) : StoreAction (Table Record) := do
  if ← StoreAction.query fun fs => fs.exists? p then
    let bytes ← StoreAction.query fun fs => fs.read p
    StoreAction.check (Snapshot.recordsFor s.dimension bytes)
  else return .empty

/-- Take the records on disk as those of the store, and forget what was not flushed. -/
def init (s : Store) : StoreAction Store := do
  let records ← match s.path with
    | none => pure Table.empty
    | some p => s.load p
  let index ← StoreAction.check (s.indexOf records)
  return { s with holdings := some ⟨records, index, .empty⟩ }

/-- Make the directories above a path. -/
def makeParents (p : Path) : StoreAction Unit :=
  match p.parent? with
  | none => pure ()
  | some up => StoreAction.changes fun fs => fs.makeDirectories up

/-- Open the file that writers of a snapshot lock. -/
def lock (p : Path) : StoreAction Unit :=
  StoreAction.change fun fs => fs.touch (p.withExtension "lock")

/-- Write a snapshot beside the old one, and then put it in its place. -/
def writeSnapshot (s : Store) (p : Path) (records : Table Record) : StoreAction Unit := do
  let snapshot : Snapshot := ⟨StoreError.schemaVersion, s.dimension, s.metric, records⟩
  let fresh := p.withExtension "json.tmp"
  StoreAction.change fun fs => fs.write fresh snapshot.encode
  StoreAction.change fun fs => fs.rename fresh p

/-- Records with those under the given ids in another table put over them. -/
def overlay (base : Table Record) (ids : List String) (top : Table Record) : Table Record :=
  base.insertAll (ids.filterMap fun id => (top.get? id).map (id, ·))

/-- Put the added records over those on disk. If the ids differ then from those of the store,
other stores have written, and their records are taken over. -/
def flush (s : Store) : StoreAction Store := do
  let h ← StoreAction.check s.ready
  match s.path with
  | none => return { s with holdings := some { h with dirty := .empty } }
  | some p =>
    if h.dirty.isEmpty then return s
    else
      makeParents p
      lock p
      let merged := overlay (← s.load p) h.dirty.keys h.records
      s.writeSnapshot p merged
      if merged.keys = h.records.keys then
        return { s with holdings := some { h with dirty := .empty } }
      else
        let index ← StoreAction.check (s.indexOf merged)
        return { s with holdings := some ⟨merged, index, .empty⟩ }

def Holdings.add (h : Holdings) (e : String × Record) : Except StoreError Holdings :=
  (h.index.upsert e.1 e.2.vector).map fun index =>
    ⟨h.records.insert e.1 e.2, index, h.dirty.insert e.1 ()⟩

/-- Add the records of a batch, all of them or none. -/
def add (s : Store) (b : Batch) : Except StoreError Store :=
  if !b.isEven then .error (.batch b.shape)
  else
    match b.vectors.find? fun v => v.length ≠ s.dimension with
    | some v => .error (.dimension s.dimension v.length)
    | none => do
      let h ← s.ready
      let h ← b.entries.foldlM Holdings.add h
      return { s with holdings := some h }

/-- Whether an id is that of a record of the kind asked for, if one is. -/
def isOfKind (records : Table Record) (kind : Option Kind) (id : String) : Bool :=
  match kind with
  | none => true
  | some k => ((records.get? id).map fun r => r.metadata.kind) = some k

/-- The `k` records nearest to a vector, of one kind if one is given. -/
def query (s : Store) (v : Embedding) (k : Nat) (kind : Option Kind) :
    Except StoreError (List Neighbor) := do
  let h ← s.ready
  let hits ← h.index.search v k (isOfKind h.records kind)
  return hits.filterMap fun (id, x) =>
    (h.records.get? id).map fun r => ⟨id, x, r.document, r.metadata⟩

def count (s : Store) : Except StoreError Nat := s.ready.map fun h => h.records.size

/-- How many ids wait to be flushed. -/
def pending (s : Store) : Nat :=
  match s.holdings with
  | none => 0
  | some h => h.dirty.size

/-- Remove every record, here and on disk. -/
def clear (s : Store) : StoreAction Store := do
  let h ← StoreAction.check s.ready
  match s.path with
  | none => pure ()
  | some p =>
    makeParents p
    lock p
    s.writeSnapshot p .empty
  return { s with holdings := some ⟨.empty, h.index.clear, .empty⟩ }

/-- Run a step on a store and keep the old one if it fails. -/
def attempt (f : Store → StoreAction Store) (s : Store) (fs : FileSystem) :
    Except StoreError Unit × Store × FileSystem :=
  match f s fs with
  | (.ok t, after) => (.ok (), t, after)
  | (.error e, after) => (.error e, s, after)

end Store

end CodeSearch
