import CodeSearch.Chunk.Document
import CodeSearch.Embedding.Metric

/-! # Records, batches and neighbours

A record is what a store keeps under an id. A batch brings records in columns, and a
neighbour is a record found at some distance from a query.
-/

namespace CodeSearch

structure Record where
  vector : Embedding
  document : String
  metadata : Metadata
  deriving DecidableEq

namespace Record

def toChunk (r : Record) : Chunk := { r.metadata with content := r.document, distance := none }

def ofChunk (v : Embedding) (c : Chunk) : Record := ⟨v, c.content, c.toMetadata⟩

def toValue (r : Record) : Value :=
  .record
    [("vector", .list (r.vector.map .single)), ("document", .text r.document),
      ("metadata", r.metadata.toValue)]

def ofValue? (dialect : Dialect) (v : Value) : Option Record :=
  match Value.fields? dialect ["vector", "document", "metadata"] v with
  | some [vector, document, metadata] => do
    some
      { vector := ← Value.required (Value.list? Value.single?) vector
        document := ← Value.required Value.text? document
        metadata := ← Value.required (Metadata.ofValue? dialect) metadata }
  | _ => none

end Record

/-- The columns of a batch, which should have one entry for each id. -/
structure Batch where
  ids : List String
  vectors : List Embedding
  documents : List String
  metadatas : List Metadata

namespace Batch

/-- Whether all columns have one length. -/
def isEven (b : Batch) : Bool :=
  b.vectors.length = b.ids.length && b.documents.length = b.ids.length &&
    b.metadatas.length = b.ids.length

/-- The lengths of columns that differ. -/
def shape (b : Batch) : String :=
  s!"column lengths differ: ids={b.ids.length} vectors={b.vectors.length} " ++
    s!"documents={b.documents.length} metadatas={b.metadatas.length}"

/-- The records of a batch with their ids. -/
def entries (b : Batch) : List (String × Record) :=
  (b.ids.zip (b.vectors.zip (b.documents.zip b.metadatas))).map fun (id, v, d, m) => (id, ⟨v, d, m⟩)

def ofEntries (es : List (String × Record)) : Batch where
  ids := es.map (·.1)
  vectors := es.map (·.2.vector)
  documents := es.map (·.2.document)
  metadatas := es.map (·.2.metadata)

theorem isEven_ofEntries (es : List (String × Record)) : (ofEntries es).isEven = true := by
  simp [isEven, ofEntries]

theorem entries_ofEntries (es : List (String × Record)) : (ofEntries es).entries = es := by
  induction es with
  | nil => rfl
  | cons e es ih =>
    simp only [entries, ofEntries, List.map_cons, List.zip_cons_cons] at ih ⊢
    rw [ih]

end Batch

structure Neighbor where
  id : String
  distance : Single
  document : String
  metadata : Metadata
  deriving DecidableEq

namespace Neighbor

/-- The chunk of a neighbour, with its distance. -/
def toChunk (n : Neighbor) : Chunk :=
  { n.metadata with content := n.document, distance := some n.distance }

end Neighbor

end CodeSearch
