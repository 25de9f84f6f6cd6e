import CodeSearch.Span

/-! # Syntax trees

A tree is a label over the trees of its children. The label names the kind of the node,
the bytes it covers and the field under which its parent holds it. The pre-order lists a
node before its children and each child's subtree before the next child.
-/

namespace CodeSearch

structure Label where
  kind : String
  span : Span
  named : Bool
  /-- Supplied by the parser, without bytes of its own. -/
  missing : Bool
  /-- Bytes that the grammar has no place for. -/
  error : Bool
  /-- Allowed between any two nodes. -/
  extra : Bool
  field : Option String
  deriving DecidableEq

inductive Tree where
  | node (label : Label) (children : List Tree)

namespace Tree

def label : Tree → Label
  | node l _ => l

def children : Tree → List Tree
  | node _ cs => cs

def kind (t : Tree) : String := t.label.kind

def span (t : Tree) : Span := t.label.span

/-- Whether a child stands in a field. -/
def inField (name : String) (t : Tree) : Bool := t.label.field = some name

def field? (name : String) (t : Tree) : Option Tree := t.children.find? (inField name)

mutual

def size : Tree → Nat
  | node _ cs => 1 + sizes cs

def sizes : List Tree → Nat
  | [] => 0
  | t :: ts => size t + sizes ts

end

mutual

def preorder : Tree → List Tree
  | node l cs => node l cs :: preorders cs

def preorders : List Tree → List Tree
  | [] => []
  | t :: ts => preorder t ++ preorders ts

end

theorem size_pos (t : Tree) : 0 < t.size := by
  cases t with
  | node l cs => exact Nat.lt_of_lt_of_le Nat.one_pos (Nat.le_add_right 1 (sizes cs))

theorem preorders_eq_flatMap (ts : List Tree) : preorders ts = ts.flatMap preorder := by
  induction ts with
  | nil => simp [preorders]
  | cons t ts ih => simp [preorders, ih]

theorem size_le_sizes {u : Tree} {ts : List Tree} (h : u ∈ ts) : u.size ≤ sizes ts := by
  induction ts with
  | nil => simp at h
  | cons t ts ih =>
    rcases List.mem_cons.1 h with rfl | h
    · simp [sizes]
    · have := ih h
      simp only [sizes]
      omega

theorem size_lt_of_mem {t u : Tree} (h : u ∈ t.children) : u.size < t.size := by
  cases t with
  | node l cs =>
    have : u.size ≤ sizes cs := size_le_sizes h
    simp only [size]
    omega

/-- The nodes from `t` on along a step to some child, at most `fuel` of them. -/
def chainFrom (step : Tree → Option Tree) : Nat → Tree → List Tree
  | 0, _ => []
  | fuel + 1, t =>
    t :: match step t with
      | none => []
      | some u => chainFrom step fuel u

/-- The nodes along a step to some child, which a tree has no more of than nodes. -/
def chain (step : Tree → Option Tree) (t : Tree) : List Tree := chainFrom step t.size t

end Tree

end CodeSearch
