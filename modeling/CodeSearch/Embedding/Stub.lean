import CodeSearch.Embedding.Metric
import CodeSearch.Text.Utf8

/-! # Vectors without a model

A text is hashed to seed a generator of words, and each word gives a number between minus
one and one. The vector of these numbers is scaled to norm one.
-/

namespace CodeSearch

namespace Stub

/-- The hash of bytes: each is mixed in, and the hash is multiplied by a prime. -/
def hash (bytes : Bytes) : UInt64 :=
  bytes.foldl (fun h b => (h ^^^ b.toUInt64) * 0x100000001b3) 0xcbf29ce484222325

/-- The step of the generator. -/
def golden : UInt64 := 0x9E3779B97F4A7C15

/-- The word for a state of the generator. -/
def mix (state : UInt64) : UInt64 :=
  let z := (state ^^^ (state >>> 30)) * 0xBF58476D1CE4E5B9
  let z := (z ^^^ (z >>> 27)) * 0x94D049BB133111EB
  z ^^^ (z >>> 31)

def wordsFrom : Nat → UInt64 → List UInt64
  | 0, _ => []
  | n + 1, state => mix (state + golden) :: wordsFrom n (state + golden)

/-- How many numbers 23 bits tell apart. -/
def numbers : Nat := 8388608

/-- The number for a word, which its 23 leading bits decide. -/
def number (word : UInt64) : Single :=
  let bits : Int := (word >>> 41).toNat
  let n := 2 * bits - numbers
  Binary.ofRatio (n < 0) n.natAbs numbers

/-- Scale a vector to norm one, unless it has norm zero. -/
def normalise (v : Embedding) : Embedding :=
  let norm := ((List.zipWith (· * ·) v v).foldl (· + ·) (Binary.zero false)).sqrt
  if norm.isZero then v else v.map (· / norm)

def seed (text : String) (dimension : Nat) : UInt64 :=
  hash (Utf8.encode text) ^^^ UInt64.ofNat dimension * golden

def embed (dimension : Nat) (text : String) : Embedding :=
  normalise ((wordsFrom dimension (seed text dimension)).map number)

theorem length_wordsFrom (n : Nat) (s : UInt64) : (wordsFrom n s).length = n := by
  induction n generalizing s with
  | zero => rfl
  | succ n ih => simp [wordsFrom, ih]

theorem length_embed (n : Nat) (text : String) : (embed n text).length = n := by
  unfold embed normalise
  dsimp only
  split <;> simp [length_wordsFrom]

end Stub

end CodeSearch
