import CodeSearch.Text.Utf8

/-! # Globs

A glob is read into pieces, and each piece takes a start of what is left of a path. Braces
hold alternatives, so a glob stands for several sequences of pieces.
-/

namespace CodeSearch

/-- A part of a glob, by what it takes from the bytes of a path. -/
inductive Piece where
  | byte (b : UInt8)
  /-- One byte that is no slash. -/
  | any
  /-- Bytes without a slash. -/
  | many
  /-- Nothing, or everything up to some slash. -/
  | opening
  /-- A slash and everything after it. -/
  | ending
  /-- A slash, or everything from a slash up to another. -/
  | between
  /-- One byte in one of the ranges, or in none of them. -/
  | oneOf (negated : Bool) (ranges : List (UInt8 × UInt8))
  deriving DecidableEq

namespace Piece

def slash : UInt8 := 47

/-- What may be left after bytes without a slash. -/
def manyRests : Bytes → List Bytes
  | [] => [[]]
  | b :: bs => if b = slash then [b :: bs] else (b :: bs) :: manyRests bs

/-- What is left after each slash. -/
def slashRests : Bytes → List Bytes
  | [] => []
  | b :: bs => if b = slash then bs :: slashRests bs else slashRests bs

/-- What may be left of bytes after a piece. -/
def rests : Piece → Bytes → List Bytes
  | many, bs => manyRests bs
  | opening, bs => bs :: slashRests bs
  | _, [] => []
  | byte b, c :: cs => if c = b then [cs] else []
  | any, c :: cs => if c = slash then [] else [cs]
  | ending, c :: _ => if c = slash then [[]] else []
  | between, c :: cs => if c = slash then cs :: slashRests cs else []
  | oneOf negated ranges, c :: cs =>
    if (ranges.any fun r => r.1 ≤ c && c ≤ r.2) != negated then [cs] else []

/-- Whether pieces take all of some bytes. -/
def accepts : List Piece → Bytes → Bool
  | [], bs => bs.isEmpty
  | p :: ps, bs => (p.rests bs).any (accepts ps)

end Piece

/-- A part of a glob as it is spelled. -/
inductive Token where
  | piece (p : Piece)
  | group (alternatives : List (List Token))

namespace Token

mutual

/-- The sequences of pieces that tokens stand for. -/
def expand : List Token → List (List Piece)
  | [] => [[]]
  | piece p :: ts => (expand ts).map (p :: ·)
  | group alternatives :: ts =>
    let choices := expandAll alternatives
    (if choices.isEmpty then [[]] else choices).flatMap fun ps => (expand ts).map (ps ++ ·)

/-- The sequences of all alternatives but the empty ones. -/
def expandAll : List (List Token) → List (List Piece)
  | [] => []
  | ts :: rest =>
    let choices := expand ts
    (if choices = [[]] then [] else choices) ++ expandAll rest

end

/-- The tokens of a character that stands for itself. -/
def ofChar (c : Char) : List Token :=
  (Utf8.encode (String.singleton c)).map fun b => piece (.byte b)

end Token

/-- A group that is still open: the tokens before it and its alternatives so far, the latest
first in both. -/
structure OpenGroup where
  before : List Token
  done : List (List Token)

/-- The state of reading a glob, with tokens in reverse. -/
structure GlobReader where
  groups : List OpenGroup
  tokens : List Token
  /-- The character read last. -/
  last : Option Char

namespace GlobReader

def push (r : GlobReader) (ts : List Token) : GlobReader :=
  { r with tokens := ts.reverse ++ r.tokens }

def pieces (r : GlobReader) (ps : List Piece) : GlobReader := r.push (ps.map .piece)

/-- Put a piece in place of the last token, unless that is an opening or an ending. -/
def fuse (r : GlobReader) (p : Piece) : GlobReader :=
  match r.tokens with
  | .piece .opening :: _ | .piece .ending :: _ => r
  | _ :: ts => { r with tokens := .piece p :: ts }
  | [] => { r with tokens := [.piece p] }

/-- Read what follows two stars. They cross slashes only if they stand between slashes or
at an end. -/
def stars (r : GlobReader) (rest : List Char) : GlobReader × List Char :=
  let plain := r.pieces [.many, .many]
  if r.tokens.isEmpty then
    match rest with
    | [] => (r.pieces [.opening], [])
    | '/' :: more => ({ r.pieces [.opening] with last := some '/' }, more)
    | _ => (plain, rest)
  else if r.last ≠ some '/' then (plain, rest)
  else
    match rest with
    | [] => (r.fuse .ending, [])
    | '/' :: more => ({ r.fuse .between with last := some '/' }, more)
    | c :: _ => if !r.groups.isEmpty && (c = ',' || c = '}') then (r.fuse .ending, rest)
      else (plain, rest)

/-- The bytes that a range of characters stands for in a class. -/
def rangeBytes (low high : Char) : List (UInt8 × UInt8) :=
  let l := Utf8.encode (String.singleton low)
  let h := Utf8.encode (String.singleton high)
  let one := fun (b : UInt8) => (b, b)
  if low = high then l.map one
  else l.dropLast.map one ++ [(l.getLastD 0, h.headD 0)] ++ h.tail.map one

/-- Read the members of a class up to its bracket, the latest first. A range that is out of
order is an error, and a class without an end is none. -/
def members : Bool → Bool → List (Char × Char) → List Char →
    Except Unit (Option (List (Char × Char) × List Char))
  | _, _, _, [] => .ok none
  | first, inRange, found, c :: cs =>
    if c = ']' && !first then .ok (some (if inRange then ('-', '-') :: found else found, cs))
    else if c = '-' && !first && !inRange then members false true found cs
    else
      match inRange, found with
      | true, (low, _) :: more =>
        if c < low then .error () else members false false ((low, c) :: more) cs
      | _, _ => members false false ((c, c) :: found) cs

/-- Read what follows an opening bracket. One without a class stands for itself. -/
def bracket (r : GlobReader) (rest : List Char) : Option (GlobReader × List Char) :=
  let (negated, body) := match rest with
    | '!' :: cs => (true, cs)
    | '^' :: cs => (true, cs)
    | cs => (false, cs)
  match members true false [] body with
  | .error _ => none
  | .ok none => some (r.push (Token.ofChar '['), rest)
  | .ok (some (found, more)) =>
    let ranges := found.reverse.flatMap fun (low, high) => rangeBytes low high
    some ({ r.pieces [.oneOf negated ranges] with last := some ']' }, more)

def closeGroup (r : GlobReader) : Option GlobReader :=
  match r.groups with
  | [] => none
  | g :: gs =>
    let alternatives := (r.tokens.reverse :: g.done).reverse
    some { r with groups := gs, tokens := .group alternatives :: g.before }

def nextAlternative (r : GlobReader) : GlobReader :=
  match r.groups with
  | [] => r.push (Token.ofChar ',')
  | g :: gs =>
    { r with groups := { g with done := r.tokens.reverse :: g.done } :: gs, tokens := [] }

/-- Read one character and what belongs to it. -/
def step (r : GlobReader) (c : Char) (rest : List Char) : Option (GlobReader × List Char) :=
  let now := fun (r : GlobReader) => { r with last := some c }
  match c, rest with
  | '?', _ => some (now (r.pieces [.any]), rest)
  | '*', '*' :: more =>
    let (after, left) := r.stars more
    some (if left.length < more.length then after else now after, left)
  | '*', _ => some (now (r.pieces [.many]), rest)
  | '[', _ => (now r).bracket rest
  | '\x7b', _ => some (now { r with groups := ⟨r.tokens, []⟩ :: r.groups, tokens := [] }, rest)
  | '\x7d', _ => r.closeGroup.map fun r => (now r, rest)
  | ',', _ => some (now r.nextAlternative, rest)
  | '\\', d :: more => some ({ r.push (Token.ofChar d) with last := some d }, more)
  | '\\', [] => none
  | _, _ => some (now (r.push (Token.ofChar c)), rest)

/-- Read characters, each step taking one or more. -/
def run : Nat → GlobReader → List Char → Option GlobReader
  | 0, r, _ => some r
  | fuel + 1, r, cs =>
    match cs with
    | [] => some r
    | c :: rest => (r.step c rest).bind fun (r, rest) => run fuel r rest

end GlobReader

/-- A path matches a glob if one of the sequences of pieces takes all of it. -/
structure Glob where
  choices : List (List Piece)

namespace Glob

/-- Two stars alone take every path. -/
def everything : Glob := ⟨[[.opening, .many]]⟩

def parse? (cs : List Char) : Option Glob :=
  (GlobReader.run cs.length ⟨[], [], none⟩ cs).bind fun r =>
    match r.groups, r.tokens with
    | [], [.piece .opening] => some everything
    | [], ts => some ⟨Token.expand ts.reverse⟩
    | _, _ => none

def accepts (g : Glob) (path : Bytes) : Bool := g.choices.any fun ps => Piece.accepts ps path

end Glob

end CodeSearch
