import CodeSearch.Chunk.Basic

/-! # Ranking

Ranking keeps the chunks nearer than a threshold, puts the nearest first, and of those with
one key leaves only the first.
-/

namespace CodeSearch

namespace Ranking

/-- Whether a chunk has a distance below the threshold. -/
def isUnder (threshold : Single) (c : Chunk) : Bool :=
  match c.distance with
  | none => false
  | some x => x.lt threshold

/-- The place of a chunk by its distance. -/
def place (c : Chunk) : Int := (c.distance.getD (Binary.infinity false)).rank

/-- The chunks whose key is neither among the given ones nor that of a chunk before. -/
def firsts (seen : List Key) : List Chunk → List Chunk
  | [] => []
  | c :: cs => if c.key ∈ seen then firsts seen cs else c :: firsts (c.key :: seen) cs

end Ranking

/-- The chunks under a threshold, ranked. Chunks at one distance keep their order. -/
def rank (threshold : Single) (chunks : List Chunk) : List Chunk :=
  Ranking.firsts [] <|
    (chunks.filter (Ranking.isUnder threshold)).mergeSort fun c d =>
      Ranking.place c ≤ Ranking.place d

namespace Ranking

theorem firsts_sublist (seen : List Key) (cs : List Chunk) : (firsts seen cs).Sublist cs := by
  induction cs generalizing seen with
  | nil => exact .slnil
  | cons c cs ih =>
    unfold firsts
    split
    · exact (ih seen).cons c
    · exact (ih _).cons_cons c

end Ranking

theorem mem_of_mem_rank {threshold : Single} {chunks : List Chunk} {c : Chunk}
    (h : c ∈ rank threshold chunks) : c ∈ chunks ∧ Ranking.isUnder threshold c = true := by
  have := (Ranking.firsts_sublist _ _).subset h
  simpa using this

end CodeSearch
