import CodeSearch.Groups
import CodeSearch.Indexing.ChunkId
import CodeSearch.Indexing.Service
import CodeSearch.Indexing.Stats

/-! # Writing chunks

The chunks of a file are embedded in groups, and each group is written as one batch. The
first group that cannot be embedded ends the file. A batch that is refused is counted and
not tried again.
-/

namespace CodeSearch

namespace Indexing

variable {ε σ : Type}

/-- The records of a group with their ids, as far as there are vectors. -/
def entriesOf (group : List Chunk) (vectors : List Embedding) : List (String × Record) :=
  (group.zip vectors).map fun (c, v) => (c.id, Record.ofChunk v c)

/-- What came of embedding some groups: their batches, and the failure that ended them. -/
structure Embedded where
  batches : List Batch
  failure : Option StoreError

/-- Embed groups in order up to the first that fails. -/
def embedGroups (m : Embedder ε) : List (List Chunk) → ε → Embedded × ε
  | [], s => (⟨[], none⟩, s)
  | g :: gs, s =>
    match m.embed (g.map (·.content)) s with
    | (.error e, s) => (⟨[], some e⟩, s)
    | (.ok vectors, s) =>
      let (rest, s) := embedGroups m gs s
      ({ rest with batches := .ofEntries (entriesOf g vectors) :: rest.batches }, s)

def addAll (b : Backend σ) : List Batch → σ → List (Except StoreError Unit) × σ
  | [], s => ([], s)
  | batch :: batches, s =>
    let (result, s) := b.add batch s
    let (results, s) := addAll b batches s
    (result :: results, s)

def embeddingMessage (source : String) (e : StoreError) : String :=
  source ++ ": embedding failed: " ++ e.message

def writeMessage (source : String) (e : StoreError) : String :=
  source ++ ": batch write failed: " ++ e.message

/-- Count the outcome of a batch. -/
def countResult (source : String) (stats : Stats) : Except StoreError Unit → Stats
  | .ok _ => { stats with written := stats.written + 1 }
  | .error e => { stats with failed := stats.failed + 1 }.addError (writeMessage source e)

def countEmbedded (source : String) (chunks : Nat) (failure : Option StoreError) : Stats :=
  let stats := { Stats.empty with chunks := UInt64.ofNat chunks }
  match failure with
  | none => stats
  | some e => stats.addError (embeddingMessage source e)

/-- Embed and write the chunks of a file. -/
def writeChunks (m : Embedder ε) (b : Backend σ) (batchSize : Nat) (source : String)
    (chunks : List Chunk) (s : ε × σ) : Stats × ε × σ :=
  let (embedded, e) := embedGroups m (groups batchSize chunks) s.1
  let (results, st) := addAll b embedded.batches s.2
  (results.foldl (countResult source) (countEmbedded source chunks.length embedded.failure), e, st)

end Indexing

end CodeSearch
