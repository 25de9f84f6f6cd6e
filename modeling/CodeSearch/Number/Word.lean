/-! # Words -/

namespace CodeSearch

/-- How many words of 64 bits there are, two to the power of 64. -/
def wordSize : Nat := 18446744073709551616

/-- A number that a word can hold. A sum that no word can hold stops the program. -/
def fit? (n : Nat) : Option Nat := if n < wordSize then some n else none

theorem fit?_of_lt {n : Nat} (few : n < wordSize) : fit? n = some n := if_pos few

theorem fit?_eq_none_iff {n : Nat} : fit? n = none ↔ wordSize ≤ n := by
  simp [fit?]

theorem fit?_eq_some_iff {m n : Nat} : fit? m = some n ↔ m < wordSize ∧ m = n := by
  simp [fit?]

end CodeSearch
