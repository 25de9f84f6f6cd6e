/-! # Reading bytes as text

Bytes are split into scalar values and ill-formed pieces. A piece is the longest
start of a well-formed sequence, or one byte where no sequence can start. Strict
reading refuses such pieces and lossy reading shows each as one replacement mark.
-/

namespace CodeSearch

/-- Source bytes and file contents. -/
abbrev Bytes := List UInt8

namespace Utf8

/-- A byte that continues a sequence. -/
def isTail (b : UInt8) : Bool := 0x80 ≤ b && b ≤ 0xBF

/-- The second bytes that may follow the first byte of a longer sequence. -/
def isSecond (a b : UInt8) : Bool :=
  if a = 0xE0 then 0xA0 ≤ b && b ≤ 0xBF
  else if a = 0xED then 0x80 ≤ b && b ≤ 0x9F
  else if a = 0xF0 then 0x90 ≤ b && b ≤ 0xBF
  else if a = 0xF4 then 0x80 ≤ b && b ≤ 0x8F
  else isTail b

/-- How many tails a first byte asks for, if a sequence can start with it. -/
def tailCount (a : UInt8) : Option Nat :=
  if a < 0x80 then some 0
  else if 0xC2 ≤ a && a ≤ 0xDF then some 1
  else if 0xE0 ≤ a && a ≤ 0xEF then some 2
  else if 0xF0 ≤ a && a ≤ 0xF4 then some 3
  else none

/-- The well-formed tails at the start of the bytes after `a`, at most `n` of them. -/
def tails (a : UInt8) (n : Nat) : Bytes → Bytes
  | [] => []
  | b :: s => if n = 0 || !isSecond a b then [] else b :: (s.take (n - 1)).takeWhile isTail

/-- The scalar value that a first byte and its tails spell. -/
def scalar (a : UInt8) (ts : Bytes) : Char :=
  let lead := if ts.isEmpty then a.toNat else a.toNat % Nat.pow 2 (6 - ts.length)
  Char.ofNat (ts.foldl (fun n b => n * 64 + b.toNat % 64) lead)

/-- The first piece of a byte sequence that starts with `a`, and how many bytes it has
after `a`. -/
def first (a : UInt8) (s : Bytes) : Option Char × Nat :=
  match tailCount a with
  | none => (none, 0)
  | some n =>
    let ts := tails a n s
    (if ts.length = n then some (scalar a ts) else none, ts.length)

/-- The pieces that start after the next `skip` bytes. -/
def piecesFrom : Nat → Bytes → List (Option Char)
  | _, [] => []
  | skip + 1, _ :: s => piecesFrom skip s
  | 0, a :: s => (first a s).1 :: piecesFrom (first a s).2 s

/-- The pieces of a byte sequence, `none` standing for an ill-formed one. -/
def pieces (bytes : Bytes) : List (Option Char) := piecesFrom 0 bytes

/-- The characters of pieces that are all well formed. -/
def wellFormed : List (Option Char) → Option (List Char)
  | [] => some []
  | none :: _ => none
  | some c :: ps => (wellFormed ps).map (c :: ·)

def decode? (bytes : Bytes) : Option String := (wellFormed (pieces bytes)).map String.ofList

/-- The text of any bytes, with U+FFFD for each ill-formed piece. -/
def decodeLossy (bytes : Bytes) : String :=
  String.ofList ((pieces bytes).map fun piece => piece.getD '\uFFFD')

def encode (text : String) : Bytes := text.toUTF8.toList

theorem map_getD_of_wellFormed {ps : List (Option Char)} {cs : List Char} (d : Char)
    (h : wellFormed ps = some cs) : ps.map (·.getD d) = cs := by
  induction ps generalizing cs with
  | nil => simp_all [wellFormed]
  | cons p ps ih =>
    cases p with
    | none => simp [wellFormed] at h
    | some c =>
      obtain ⟨ds, hds, rfl⟩ := Option.map_eq_some_iff.1 h
      simp [ih hds]

/-- Both readings agree on well-formed bytes. -/
theorem decodeLossy_of_decode? {bytes : Bytes} {text : String} (h : decode? bytes = some text) :
    decodeLossy bytes = text := by
  obtain ⟨cs, hcs, rfl⟩ := Option.map_eq_some_iff.1 h
  rw [decodeLossy, map_getD_of_wellFormed _ hcs]

end Utf8

end CodeSearch
