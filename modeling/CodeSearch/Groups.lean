/-! # Groups of consecutive items

A list is cut into groups of equal length. The last group may be shorter.
-/

namespace CodeSearch

/-- The groups of a list, at most `fuel` of them. -/
def groupsFrom {α : Type} (n : Nat) : Nat → List α → List (List α)
  | 0, _ => []
  | fuel + 1, xs => if xs.isEmpty then [] else xs.take n :: groupsFrom n fuel (xs.drop n)

/-- The groups of `n` items. A list has no more groups than items. -/
def groups {α : Type} (n : Nat) (xs : List α) : List (List α) := groupsFrom n xs.length xs

theorem groupsFrom_flatten {α : Type} {n : Nat} (hn : 0 < n) {fuel : Nat} {xs : List α}
    (h : xs.length ≤ fuel) : (groupsFrom n fuel xs).flatten = xs := by
  induction fuel generalizing xs with
  | zero => simp_all [groupsFrom]
  | succ fuel ih =>
    unfold groupsFrom
    split
    · simp_all
    · have : (xs.drop n).length ≤ fuel := by simp; omega
      simp [ih this]

/-- Nothing is lost between the groups. -/
theorem flatten_groups {α : Type} {n : Nat} (hn : 0 < n) (xs : List α) :
    (groups n xs).flatten = xs := groupsFrom_flatten hn (Nat.le_refl _)

end CodeSearch
