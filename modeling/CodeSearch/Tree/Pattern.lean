import CodeSearch.Tree.Basic

/-! # Patterns on trees

A pattern asks for a kind of node and, in order, for some of its children by field. The
children may have others between them, and the first way to match in document order counts.
-/

namespace CodeSearch

/-- What a pattern takes out of a tree. -/
inductive Capture where
  | functionDeclarator | className | structName | structAlias | arrayName | comment
  deriving DecidableEq, Repr

def Capture.name : Capture → String
  | functionDeclarator => "function.declarator"
  | className => "class.name"
  | structName => "struct.name"
  | structAlias => "struct.alias"
  | arrayName => "array.name"
  | comment => "comment"

inductive Pattern where
  /-- A node of a kind with children in the given fields. -/
  | node (kind : String) (parts : List (String × Pattern))
  /-- A named node that is no error. -/
  | named
  /-- A node that matches and is taken out. -/
  | capture (name : Capture) (pattern : Pattern)
  /-- A node that matches one of the patterns, the first of them that can. -/
  | oneOf (patterns : List Pattern)

/-- The nodes taken out, by the names of the captures. -/
abbrev Match := List (Capture × Tree)

namespace Match

/-- The node taken out under a name. -/
def capture? (name : Capture) (m : Match) : Option Tree :=
  (m.find? fun bound => bound.1 = name).map (·.2)

end Match

namespace Pattern

/-- A list and what is left of it after each of its items but the last. -/
def suffixes {α : Type} : List α → List (List α)
  | [] => []
  | a :: as => (a :: as) :: suffixes as

mutual

/-- The first match with its root at the tree. -/
def match? : Pattern → Tree → Option Match
  | node k parts, t => if t.kind = k then matchParts? parts t.children else none
  | named, t => if t.label.named && !t.label.error then some [] else none
  | capture c p, t => (match? p t).map ((c, t) :: ·)
  | oneOf ps, t => matchOne? ps t

/-- The first match of parts with siblings in the same order. -/
def matchParts? : List (String × Pattern) → List Tree → Option Match
  | [], _ => some []
  | (field, p) :: parts, ts =>
    (suffixes ts).findSome? fun
      | [] => none
      | u :: us =>
        if u.inField field then
          (match? p u).bind fun m => (matchParts? parts us).map (m ++ ·)
        else none

def matchOne? : List Pattern → Tree → Option Match
  | [], _ => none
  | p :: ps, t =>
    match match? p t with
    | some m => some m
    | none => matchOne? ps t

end

end Pattern

end CodeSearch
