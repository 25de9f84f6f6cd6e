import CodeSearch.Number.Binary
import CodeSearch.Text.Blank
import CodeSearch.Text.Letter

/-! # Distances between vectors

A dot product keeps eight running sums over whole blocks of eight products, adds them in
pairs, and then adds the products that are left, one by one. The order decides the last
digits of a distance.
-/

namespace CodeSearch

/-- The vector that stands for a text. -/
abbrev Embedding := List Single

namespace Embedding

/-- The running sums over whole blocks of eight, and the numbers that are left. -/
def blockSums : List Single → List Single → List Single × List Single
  | sums, a :: b :: c :: d :: e :: f :: g :: h :: rest =>
    blockSums (List.zipWith (· + ·) sums [a, b, c, d, e, f, g, h]) rest
  | sums, rest => (sums, rest)

def total (xs : List Single) : Single :=
  let (sums, rest) := blockSums (List.replicate 8 (Binary.zero false)) xs
  let pairs := List.zipWith (· + ·) (sums.take 4) (sums.drop 4)
  (pairs ++ rest).foldl (· + ·) (Binary.zero false)

def dot (u v : Embedding) : Single := total (List.zipWith (· * ·) u v)

def diff (u v : Embedding) : Embedding := List.zipWith (· - ·) u v

def norm (u : Embedding) : Single := (dot u u).sqrt

/-- One copy of the only number of a vector for each of `n` places. -/
def spread (n : Nat) (u : Embedding) : Embedding :=
  match u with
  | [x] => List.replicate n x
  | _ => u

end Embedding

inductive Metric where
  /-- The square of the Euclidean distance. -/
  | l2
  /-- One less the cosine of the angle. -/
  | cosine
  deriving DecidableEq, Repr

namespace Metric

def all : List Metric := [l2, cosine]

def name : Metric → String
  | l2 => "l2"
  | cosine => "cosine"

def ofName? (s : String) : Option Metric := all.find? fun m => m.name = s

/-- The metric that a user names, in any case and between any blanks. -/
def parse? (s : String) : Option Metric := ofName? (Text.lower (Text.trim s))

/-- What to tell a user who names no metric. -/
def unknown (s : String) : String :=
  "unknown distance metric '" ++ Text.lower (Text.trim s) ++ "' (expected l2 or cosine)"

/-- The distance between vectors of one length. Nothing points the way of a vector of norm
zero, so its cosine with any other is taken to be zero. -/
def distance (m : Metric) (u v : Embedding) : Single :=
  match m with
  | l2 => Embedding.dot (Embedding.diff u v) (Embedding.diff u v)
  | cosine =>
    let a := Embedding.norm u
    let b := Embedding.norm v
    let one := Binary.ofNat 1
    if a.isZero || b.isZero then one else one - Embedding.dot u v / (a * b)

/-- The distance between vectors that may differ in length. A single number goes with any
length by the square distance, and a vector of norm zero does by the cosine. -/
def distance? (m : Metric) (u v : Embedding) : Option Single :=
  match m with
  | l2 =>
    let u' := Embedding.spread v.length u
    let v' := Embedding.spread u.length v
    if u'.length = v'.length then some (distance l2 u' v') else none
  | cosine =>
    if (Embedding.norm u).isZero || (Embedding.norm v).isZero || u.length = v.length then
      some (distance cosine u v)
    else none

theorem ofName?_name (m : Metric) : ofName? m.name = some m := by cases m <;> decide

end Metric

end CodeSearch
