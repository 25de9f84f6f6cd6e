import CodeSearch.Data.Numeral
import CodeSearch.Text.Hex
import CodeSearch.Text.Utf8

/-! # Reading JSON

A text is one value between blanks. Names of fields may repeat and keep their order. A
string whose escapes pair no surrogates is a value that no reader takes, and so is a record
with such a name.
-/

namespace CodeSearch

namespace Json

def skip (cs : List Char) : List Char :=
  cs.dropWhile fun c => c = ' ' || c = '\n' || c = '\t' || c = '\r'

/-- A part of a string: a character, or a code unit written as an escape. -/
inductive Piece where
  | char (c : Char)
  | unit (n : Nat)

/-- The character behind a backslash. -/
def escape? : Char → Option Char
  | '"' => some '"'
  | '\\' => some '\\'
  | '/' => some '/'
  | 'b' => some '\x08'
  | 'f' => some '\x0c'
  | 'n' => some '\n'
  | 'r' => some '\r'
  | 't' => some '\t'
  | _ => none

/-- The parts of a string up to its closing quote, and the text after it. -/
def pieces : List Char → Option (List Piece × List Char)
  | [] => none
  | '"' :: cs => some ([], cs)
  | '\\' :: 'u' :: a :: b :: c :: d :: cs => do
    let n ← Hex.value? [a, b, c, d]
    let (ps, rest) ← pieces cs
    some (.unit n :: ps, rest)
  | '\\' :: e :: cs => do
    let c ← escape? e
    let (ps, rest) ← pieces cs
    some (.char c :: ps, rest)
  | c :: cs => do
    guard (' ' ≤ c && c ≠ '\\')
    let (ps, rest) ← pieces cs
    some (.char c :: ps, rest)

/-- The characters of a string, if its surrogates come in pairs. -/
def characters : List Piece → Option (List Char)
  | [] => some []
  | .char c :: ps => (characters ps).map (c :: ·)
  | .unit n :: ps =>
    if n < 0xD800 || 0xDFFF < n then (characters ps).map (Char.ofNat n :: ·)
    else
      match ps with
      | .unit m :: qs =>
        if n ≤ 0xDBFF && 0xDC00 ≤ m && m ≤ 0xDFFF then
          (characters qs).map (Char.ofNat (0x10000 + (n - 0xD800) * 0x400 + (m - 0xDC00)) :: ·)
        else none
      | _ => none

def string (ps : List Piece) : Value :=
  match characters ps with
  | some cs => .text (String.ofList cs)
  | none => .foreign

/-- A name of a field. -/
def name (ps : List Piece) : Option String := (characters ps).map String.ofList

def record (fields : List (Option String × Value)) : Value :=
  match fields.mapM fun (name, v) => name.map (·, v) with
  | some fields => .record fields
  | none => .foreign

/-- Digits behind a point, at least one. -/
def places : List Char → Option (List Char × List Char)
  | '.' :: cs =>
    let ds := cs.takeWhile Char.isDigit
    if ds.isEmpty then none else some (ds, cs.dropWhile Char.isDigit)
  | cs => some ([], cs)

/-- Digits behind an exponent mark and a sign, at least one. -/
def exponent : List Char → Option (Option (Bool × List Char) × List Char)
  | [] => some (none, [])
  | c :: cs =>
    if c = 'e' || c = 'E' then
      let (negative, rest) := Decimal.takeSign cs
      let ds := rest.takeWhile Char.isDigit
      if ds.isEmpty then none else some (some (negative, ds), rest.dropWhile Char.isDigit)
    else some (none, c :: cs)

/-- A numeral; its first digit is zero only if it is alone before the point. -/
def numeral (cs : List Char) : Option (Numeral × List Char) := do
  let (negative, cs) := match cs with
    | '-' :: cs => (true, cs)
    | cs => (false, cs)
  let whole := cs.takeWhile Char.isDigit
  guard (whole ≠ [] && (whole.head? ≠ some '0' || whole.length = 1))
  let (fraction, rest) ← places (cs.dropWhile Char.isDigit)
  let (power, rest) ← exponent rest
  some (⟨negative, whole, fraction, power⟩, rest)

mutual

/-- A value; each step down or along spends fuel. -/
def value : Nat → List Char → Option (Value × List Char)
  | 0, _ => none
  | fuel + 1, cs =>
    match skip cs with
    | 'n' :: 'u' :: 'l' :: 'l' :: cs => some (.null, cs)
    | 't' :: 'r' :: 'u' :: 'e' :: cs => some (.bool true, cs)
    | 'f' :: 'a' :: 'l' :: 's' :: 'e' :: cs => some (.bool false, cs)
    | '"' :: cs => (pieces cs).map fun (ps, rest) => (string ps, rest)
    | '[' :: cs =>
      match skip cs with
      | ']' :: cs => some (.list [], cs)
      | cs => (items fuel cs).map fun (vs, rest) => (.list vs, rest)
    | '\x7b' :: cs =>
      match skip cs with
      | '\x7d' :: cs => some (.record [], cs)
      | cs => (fields fuel cs).map fun (fs, rest) => (record fs, rest)
    | cs => (numeral cs).map fun (x, rest) => (x.value, rest)

/-- The items of a list after its opening bracket, at least one. -/
def items : Nat → List Char → Option (List Value × List Char)
  | 0, _ => none
  | fuel + 1, cs => do
    let (v, rest) ← value fuel cs
    match skip rest with
    | ']' :: cs => some ([v], cs)
    | ',' :: cs =>
      let (vs, rest) ← items fuel cs
      some (v :: vs, rest)
    | _ => none

/-- The fields of a record after its opening brace, at least one. -/
def fields : Nat → List Char → Option (List (Option String × Value) × List Char)
  | 0, _ => none
  | fuel + 1, cs => do
    let (ps, rest) ← match skip cs with
      | '"' :: cs => pieces cs
      | _ => none
    let (v, rest) ← match skip rest with
      | ':' :: cs => value fuel cs
      | _ => none
    match skip rest with
    | '\x7d' :: cs => some ([(name ps, v)], cs)
    | ',' :: cs =>
      let (fs, rest) ← fields fuel cs
      some ((name ps, v) :: fs, rest)
    | _ => none

end

/-- The value of a whole text. Every step of the reader takes a character or goes down one
of three levels to one that does. -/
def parse? (text : String) : Option Value := do
  let cs := text.toList
  let (v, rest) ← value (3 * cs.length + 3) cs
  guard (skip rest = [])
  some v

/-- In JSON a record has no more items than fields, and a unit is null. -/
def dialect : Dialect where
  spareItems := false
  isUnit
    | .null => true
    | _ => false

end Json

end CodeSearch
