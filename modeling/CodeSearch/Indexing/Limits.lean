import CodeSearch.Number.Decimal
import CodeSearch.Text.Blank

/-! # Limits of indexing -/

namespace CodeSearch

namespace Concurrency

def greatest : Nat := 32

def clamp (n : Nat) : Nat := max 1 (min n greatest)

/-- How many files to index at once on a host: half its processors, from 1 to 8. -/
def ofProcessors (n : Nat) : Nat := max 1 (min (n / 2) 8)

/-- The number in a text. -/
def read? (s : String) : Option Nat := Decimal.natural? wordSize (Text.trim s)

/-- What a variable sets, if it holds a number, else what the host has. -/
def ofVariable (processors : Nat) (setting : Option String) : Nat :=
  match setting.bind read? with
  | some n => clamp n
  | none => ofProcessors processors

theorem clamp_mem (n : Nat) : 1 ≤ clamp n ∧ clamp n ≤ greatest := by
  unfold clamp greatest
  omega

theorem clamp_clamp (n : Nat) : clamp (clamp n) = clamp n := by
  unfold clamp
  omega

theorem ofVariable_mem (p : Nat) (v : Option String) :
    1 ≤ ofVariable p v ∧ ofVariable p v ≤ greatest := by
  unfold ofVariable
  split
  · exact clamp_mem _
  · unfold ofProcessors greatest
    omega

end Concurrency

/-- How many chunks are written at once if nothing else is asked for. -/
def standardBatchSize : Nat := 100

end CodeSearch
