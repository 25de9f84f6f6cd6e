/-! # Byte spans

A span runs from its first byte up to, but not including, its stop. One span contains
another even if they share an end.
-/

namespace CodeSearch

structure Span where
  start : Nat
  stop : Nat
  deriving DecidableEq, Repr

namespace Span

def contains (outer inner : Span) : Bool :=
  outer.start ≤ inner.start && inner.stop ≤ outer.stop

/-- The items of a list that lie in the span. -/
def slice {α : Type} (s : Span) (xs : List α) : List α := (xs.drop s.start).take (s.stop - s.start)

theorem contains_iff {a b : Span} : a.contains b = true ↔ a.start ≤ b.start ∧ b.stop ≤ a.stop := by
  simp [contains]

theorem contains_self (a : Span) : a.contains a = true := by simp [contains]

theorem contains_trans {a b c : Span} (h : a.contains b = true) (h' : b.contains c = true) :
    a.contains c = true := by
  simp only [contains_iff] at *
  omega

end Span

end CodeSearch
