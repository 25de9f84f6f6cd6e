import CodeSearch.Tree.Basic

/-! # Walking a tree

A cursor stands on a node and remembers the way down to it. It goes to the first child,
else to the next sibling of the nearest node on the way that has one, and the walk is
over when there is none.
-/

namespace CodeSearch

/-- The nodes above, the nearest first, each with the siblings after the way down. -/
abbrev Trail := List (Tree × List Tree)

structure Cursor where
  focus : Tree
  trail : Trail

namespace Cursor

/-- The cursor that sees nothing above a node. -/
def start (t : Tree) : Cursor := ⟨t, []⟩

def firstChild? (c : Cursor) : Option Cursor :=
  match c.focus.children with
  | [] => none
  | t :: ts => some ⟨t, (c.focus, ts) :: c.trail⟩

def nextSibling? (c : Cursor) : Option Cursor :=
  match c.trail with
  | (up, t :: ts) :: trail => some ⟨t, (up, ts) :: trail⟩
  | _ => none

def parent? (c : Cursor) : Option Cursor :=
  match c.trail with
  | (up, _) :: trail => some ⟨up, trail⟩
  | [] => none

/-- The next sibling of the nearest node that has one, on the node or above it. -/
def climb : Trail → Tree → Option Cursor
  | [], _ => none
  | (up, ts) :: trail, t =>
    match nextSibling? ⟨t, (up, ts) :: trail⟩ with
    | some c => some c
    | none => climb trail up

/-- The cursor on the next node of the walk. -/
def advance (c : Cursor) : Option Cursor :=
  match c.firstChild? with
  | some d => some d
  | none => climb c.trail c.focus

/-- The state of a walk: the cursor on the node to visit next, if any. -/
abbrev Walk := Option Cursor

/-- Visit a node. After the last one there is none. -/
def next? : Walk → Option Tree × Walk
  | none => (none, none)
  | some c => (some c.focus, c.advance)

/-- The next nodes of a walk, at most `fuel` of them. -/
def visits : Nat → Walk → List Tree
  | 0, _ => []
  | fuel + 1, w =>
    match next? w with
    | (none, _) => []
    | (some t, w) => t :: visits fuel w

end Cursor

/-- The nodes of a tree in the order of the walk, which visits no more than there are. -/
def Tree.walk (t : Tree) : List Tree := Cursor.visits t.size (some (.start t))

end CodeSearch
