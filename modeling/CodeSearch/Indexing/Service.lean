import CodeSearch.Embedding.Stub
import CodeSearch.Store.Handle

/-! # What indexing and retrieval work with

An embedder turns texts into vectors, and a backend keeps records. Both may have a state and
may fail. A store is a backend, and the hash of a text makes an embedder.
-/

namespace CodeSearch

structure Embedder (ε : Type) where
  /-- A vector for each text, in order. -/
  embed : List String → ε → Except StoreError (List Embedding) × ε

structure Backend (σ : Type) where
  /-- Whether requests can be served. -/
  ready : σ → Except StoreError Unit
  add : Batch → σ → Except StoreError Unit × σ
  flush : σ → FileSystem → Except StoreError Unit × σ × FileSystem
  query : Embedding → Nat → Option Kind → σ → Except StoreError (List Neighbor)

/-- The embedder without a model. -/
def stubEmbedder (dimension : Nat) : Embedder Unit where
  embed texts s := (.ok (texts.map (Stub.embed dimension)), s)

/-- Add to a store, which stays as it was if that fails. -/
def Store.tryAdd (b : Batch) (s : Store) : Except StoreError Unit × Store :=
  match s.add b with
  | .ok t => (.ok (), t)
  | .error e => (.error e, s)

def storeBackend : Backend Store where
  ready s := s.ready.map fun _ => ()
  add := Store.tryAdd
  flush := Store.attempt Store.flush
  query v k kind s := s.query v k kind

def Embedder.embedOne {ε : Type} (m : Embedder ε) (text : String) (s : ε) :
    Except StoreError Embedding × ε :=
  match m.embed [text] s with
  | (.error e, s) => (.error e, s)
  | (.ok [], s) => (.error (.embedding "No embedding returned"), s)
  | (.ok (v :: _), s) => (.ok v, s)

end CodeSearch
