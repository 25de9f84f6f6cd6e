import CodeSearch.Tree.Basic

/-! # Outlines

An outline lists the labels of a tree in pre-order, each with its depth. The trees of the
nodes after a node that lie deeper than it, up to the first that does not, are its children.
-/

namespace CodeSearch

namespace Tree

/-- The trees that an outline still holds, each with the depth of its root. -/
abbrev Forest := List (Nat × Tree)

/-- Put a node before a forest, over the trees at its start that lie deeper. -/
def plant (entry : Nat × Label) (forest : Forest) : Forest :=
  let deeper := fun (item : Nat × Tree) => decide (entry.1 < item.1)
  (entry.1, node entry.2 ((forest.takeWhile deeper).map (·.2))) :: forest.dropWhile deeper

/-- The tree of an outline with one root. -/
def ofOutline? (entries : List (Nat × Label)) : Option Tree :=
  match entries.foldr plant [] with
  | [(_, t)] => some t
  | _ => none

mutual

/-- The outline of a tree whose root lies at a depth. -/
def outline (depth : Nat) : Tree → List (Nat × Label)
  | node l cs => (depth, l) :: outlines (depth + 1) cs

def outlines (depth : Nat) : List Tree → List (Nat × Label)
  | [] => []
  | t :: ts => outline depth t ++ outlines depth ts

end

end Tree

end CodeSearch
