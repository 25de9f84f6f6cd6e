import CodeSearch.Embedding.Metric
import CodeSearch.Store.Failure
import CodeSearch.Table

/-! # Nearest neighbours

An index compares a query with each of its vectors. The hits come by ascending distance,
and those at one distance by id.
-/

namespace CodeSearch

structure Index where
  dimension : Nat
  metric : Metric
  vectors : Table Embedding

/-- An id and how far its vector is. -/
abbrev Hit := String × Single

namespace Hit

/-- Nearer, or as near and not later by id. -/
def le (a b : Hit) : Bool := a.2.rank < b.2.rank || (a.2.rank = b.2.rank && a.1 ≤ b.1)

end Hit

namespace Index

def empty (dimension : Nat) (metric : Metric) : Index := ⟨dimension, metric, .empty⟩

/-- Refuse a vector of another length. -/
def check (x : Index) (v : Embedding) : Except StoreError Unit :=
  if v.length = x.dimension then .ok () else .error (.dimension x.dimension v.length)

/-- Put a vector under an id, in place of what was there. -/
def upsert (x : Index) (id : String) (v : Embedding) : Except StoreError Index :=
  (x.check v).map fun _ => { x with vectors := x.vectors.insert id v }

def upsertAll (x : Index) (es : List (String × Embedding)) : Except StoreError Index :=
  es.foldlM (fun x e => x.upsert e.1 e.2) x

/-- The distances of the ids that pass a test, without those that are no number. -/
def scores (x : Index) (query : Embedding) (passes : String → Bool) : List Hit :=
  ((x.vectors.entries.filter fun e => passes e.1).map fun e =>
    (e.1, x.metric.distance query e.2)).filter fun hit => !hit.2.isNaN

/-- The `k` nearest among the ids that pass a test. -/
def search (x : Index) (query : Embedding) (k : Nat) (passes : String → Bool) :
    Except StoreError (List Hit) :=
  (x.check query).map fun _ => ((x.scores query passes).mergeSort Hit.le).take k

def size (x : Index) : Nat := x.vectors.size

def clear (x : Index) : Index := { x with vectors := .empty }

end Index

theorem Hit.le_trans (a b c : Hit) : Hit.le a b → Hit.le b c → Hit.le a c := by
  simp only [Hit.le, Bool.or_eq_true, Bool.and_eq_true, decide_eq_true_eq]
  rintro (h | ⟨h, h'⟩) (g | ⟨g, g'⟩)
  · left; omega
  · left; omega
  · left; omega
  · exact .inr ⟨h.trans g, Std.le_trans h' g'⟩

theorem Hit.le_total (a b : Hit) : (Hit.le a b || Hit.le b a) = true := by
  simp only [Hit.le, Bool.or_eq_true, Bool.and_eq_true, decide_eq_true_eq]
  rcases Int.lt_trichotomy a.2.rank b.2.rank with h | h | h
  · exact .inl (.inl h)
  · rcases (Std.le_total : a.1 ≤ b.1 ∨ b.1 ≤ a.1) with h' | h'
    · exact .inl (.inr ⟨h, h'⟩)
    · exact .inr (.inr ⟨h.symm, h'⟩)
  · exact .inr (.inl h)

end CodeSearch
