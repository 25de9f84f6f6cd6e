import CodeSearch.Data.Value
import CodeSearch.Number.Decimal
import CodeSearch.Text.Hex

/-! # Writing JSON

Values are written on one line without blanks, or over several lines with two blanks for
each level. A number that is not finite is written as null.
-/

namespace CodeSearch

namespace Json

/-- A character of a string. Quotes, backslashes and controls are escaped. -/
def quoteChar (c : Char) : List Char :=
  if c = '"' then ['\\', '"']
  else if c = '\\' then ['\\', '\\']
  else if c = '\x08' then ['\\', 'b']
  else if c = '\x0c' then ['\\', 'f']
  else if c = '\n' then ['\\', 'n']
  else if c = '\r' then ['\\', 'r']
  else if c = '\t' then ['\\', 't']
  else if c < ' ' then ['\\', 'u', '0', '0', Hex.digit (c.toNat / 16), Hex.digit (c.toNat % 16)]
  else [c]

def quote (s : String) : List Char := '"' :: (s.toList.flatMap quoteChar ++ ['"'])

/-- Numbers from `10 ^ -5` up to this power of ten are written without an exponent. -/
structure Width where
  digits : Int

/-- A number with a point or an exponent. -/
def real {f : BinaryFormat} (w : Width) (x : Binary f) : List Char :=
  if !x.isFinite then ['n', 'u', 'l', 'l']
  else
    let d := Decimal.shortest x
    let ds := Decimal.digits d.coefficient
    let place : Int := ds.length + d.exponent
    let tail := fun e : Int =>
      'e' :: (Decimal.sign (e < 0) ++ Decimal.digits e.natAbs)
    Decimal.sign x.negative ++
      if d.coefficient = 0 then ['0', '.', '0']
      else if 0 ≤ d.exponent && place ≤ w.digits then
        ds ++ Decimal.zeros d.exponent.toNat ++ ['.', '0']
      else if -5 ≤ place && place ≤ w.digits then Decimal.pointed ds place
      else if ds.length = 1 then ds ++ tail (place - 1)
      else Decimal.pointed ds 1 ++ tail (place - 1)

def scalar : Value → List Char
  | .bool true => ['t', 'r', 'u', 'e']
  | .bool false => ['f', 'a', 'l', 's', 'e']
  | .integer n => Decimal.sign (n < 0) ++ Decimal.digits n.natAbs
  | .real x => real ⟨16⟩ x
  | .single x => real ⟨13⟩ x
  | .text s => quote s
  | _ => ['n', 'u', 'l', 'l']

/-- A line break and the blanks of a level. -/
def newline (depth : Nat) : List Char := '\n' :: List.replicate (2 * depth) ' '

/-- How the parts of a list or a record stand apart. -/
structure Layout where
  /-- What comes before each part at a level, and before the closing mark. -/
  gap : Nat → List Char
  /-- What comes between a name and its value. -/
  colon : List Char

/-- One line without blanks. -/
def compact : Layout := ⟨fun _ => [], [':']⟩

/-- One part a line. -/
def pretty : Layout := ⟨newline, [':', ' ']⟩

mutual

/-- The text of a value whose parts stand at a level. -/
def render (l : Layout) (depth : Nat) : Value → List Char
  | .list [] => ['[', ']']
  | .list (v :: vs) =>
    '[' :: (l.gap depth ++ render l (depth + 1) v ++ renderItems l depth vs ++
      l.gap (depth - 1) ++ [']'])
  | .record [] => ['\x7b', '\x7d']
  | .record ((name, v) :: fs) =>
    '\x7b' :: (l.gap depth ++ quote name ++ l.colon ++ render l (depth + 1) v ++
      renderFields l depth fs ++ l.gap (depth - 1) ++ ['\x7d'])
  | v => scalar v

def renderItems (l : Layout) (depth : Nat) : List Value → List Char
  | [] => []
  | v :: vs => ',' :: (l.gap depth ++ render l (depth + 1) v ++ renderItems l depth vs)

def renderFields (l : Layout) (depth : Nat) : List (String × Value) → List Char
  | [] => []
  | (name, v) :: fs =>
    ',' :: (l.gap depth ++ quote name ++ l.colon ++ render l (depth + 1) v ++
      renderFields l depth fs)

end

/-- The text of a value on one line. -/
def toLine (v : Value) : String := String.ofList (render compact 1 v)

/-- The text of a value over several lines. -/
def toLines (v : Value) : String := String.ofList (render pretty 1 v)

end Json

end CodeSearch
