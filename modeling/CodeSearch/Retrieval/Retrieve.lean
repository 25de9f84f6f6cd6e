import CodeSearch.Indexing.Service
import CodeSearch.Retrieval.Ranking
import CodeSearch.Text.Blank

/-! # Retrieval

A question is embedded, the backend is asked for the nearest records, and the chunks of
those under a threshold are ranked.
-/

namespace CodeSearch

structure Request where
  query : String
  /-- How many records the backend is asked for. -/
  limit : Nat
  /-- Chunks at this distance or further are left out. -/
  threshold : Single
  kind : Option Kind

inductive RetrievalError where
  | store (e : StoreError)
  | emptyQuery
  | noThreshold
  deriving DecidableEq, Repr

namespace RetrievalError

def message : RetrievalError → String
  | store e => "Vector store error: " ++ e.message
  | emptyQuery => "Empty query"
  | noThreshold => "Invalid retrieval request: similarity_threshold is NaN"

/-- Whether the backend has yet to be made ready. -/
def isNotReady : RetrievalError → Bool
  | store .notReady => true
  | _ => false

end RetrievalError

def rankNeighbors (threshold : Single) (ns : List Neighbor) : List Chunk :=
  rank threshold (ns.map Neighbor.toChunk)

variable {ε σ : Type}

/-- The chunks for a request, the nearest first. -/
def retrieve (m : Embedder ε) (b : Backend σ) (r : Request) (e : ε) (s : σ) :
    Except RetrievalError (List Chunk) × ε :=
  if Text.isBlankText r.query then (.error .emptyQuery, e)
  else if r.threshold.isNaN then (.error .noThreshold, e)
  else
    match b.ready s with
    | .error x => (.error (.store x), e)
    | .ok _ =>
      if r.limit = 0 then (.ok [], e)
      else
        match m.embedOne r.query e with
        | (.error x, e) => (.error (.store x), e)
        | (.ok v, e) =>
          match b.query v r.limit r.kind s with
          | .error x => (.error (.store x), e)
          | .ok ns => (.ok (rankNeighbors r.threshold ns), e)

end CodeSearch
