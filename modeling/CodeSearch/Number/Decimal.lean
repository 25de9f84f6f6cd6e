import CodeSearch.Number.Binary

/-! # Decimal numerals

A decimal is a coefficient times a power of ten. A binary number is read as the nearest
one to a decimal and is written with the fewest digits that read back, of those the
nearest, or with a fixed number of places.
-/

namespace CodeSearch

/-- The number `± coefficient * 10 ^ exponent`. -/
structure Decimal where
  negative : Bool
  coefficient : Nat
  exponent : Int
  deriving DecidableEq

namespace Decimal

/-- How many decimal digits a natural number has; zero has one. -/
def digitCount (n : Nat) : Nat := (Nat.toDigits 10 n).length

def digits (n : Nat) : List Char := Nat.toDigits 10 n

/-- No format here has numbers with more digits than this on either side of the point. -/
def reach : Int := 400

/-- The binary number nearest to a decimal. -/
def toBinary {f : BinaryFormat} (d : Decimal) : Binary f :=
  let place := d.exponent + digitCount d.coefficient
  if d.coefficient = 0 || place < -reach then Binary.zero d.negative
  else if reach < place then Binary.infinity d.negative
  else if d.exponent < 0 then
    Binary.ofRatio d.negative d.coefficient (Nat.pow 10 (-d.exponent).toNat)
  else Binary.ofRatio d.negative (d.coefficient * Nat.pow 10 d.exponent.toNat) 1

/-- The exponent `k` for which `n / d` lies between `10 ^ (k - 1)` and `10 ^ k`. -/
def leading (n d : Nat) : Int :=
  if d ≤ n then digitCount (n / d) else 1 - digitCount ((d - 1) / n)

/-- The two neighbours of `n / d` among the multiples of `10 ^ e`. -/
def neighbours (n d : Nat) (e : Int) : List Nat :=
  let q := if e < 0 then n * Nat.pow 10 (-e).toNat / d else n / (d * Nat.pow 10 e.toNat)
  [q, q + 1]

/-- Twice a decimal as a ratio with the denominator `d`, cleared of the power of ten. -/
def twice (c : Nat) (e : Int) (d : Nat) : Nat × Nat :=
  if e < 0 then (2 * c * d, Nat.pow 10 (-e).toNat) else (2 * c * d * Nat.pow 10 e.toNat, 1)

/-- Whether `c * 10 ^ e` rounds to the finite code `code`: it lies between the midpoints to
the neighbouring codes, which themselves round to the even code. -/
def readsBack (f : BinaryFormat) (code c : Nat) (e : Int) : Bool :=
  let (n, d) := twice c e f.one
  let low := (f.units (code - 1) + f.units code) * d
  let high := (f.units code + f.units (code + 1)) * d
  (low < n && n < high) || (code % 2 = 0 && (n = low || n = high))

/-- The distance from `c * 10 ^ e` to the number with the code, in units over the same
denominator for all `c`. -/
def gap (f : BinaryFormat) (code c : Nat) (e : Int) : Nat :=
  let (n, d) := twice c e f.one
  let v := 2 * f.units code * d
  (n - v) + (v - n)

/-- The nearest decimal among those with `count` digits that read back. -/
def withDigits (f : BinaryFormat) (code count : Nat) : Option (Nat × Int) :=
  let e := leading (f.units code) f.one - count
  match (neighbours (f.units code) f.one e).filter fun c => readsBack f code c e with
  | [] => none
  | [c] => some (c, e)
  | c :: c' :: _ =>
    let g := gap f code c e
    let g' := gap f code c' e
    some (if g < g' || (g = g' && c % 2 = 0) then c else c', e)

/-- Drop the zeros at the end of a coefficient, at most `fuel` of them. -/
def stripZeros : Nat → Nat → Int → Nat × Int
  | 0, c, e => (c, e)
  | fuel + 1, c, e => if c ≠ 0 && c % 10 = 0 then stripZeros fuel (c / 10) (e + 1) else (c, e)

/-- The decimal with the fewest digits that reads back as a finite number. Seventeen digits
are enough for every format here. -/
def shortest {f : BinaryFormat} (x : Binary f) : Decimal :=
  if x.code = 0 then ⟨x.negative, 0, 0⟩
  else
    match (List.range 17).findSome? fun k => withDigits f x.code (k + 1) with
    | some (c, e) => let (c, e) := stripZeros 18 c e; ⟨x.negative, c, e⟩
    | none => ⟨x.negative, 0, 0⟩

def sign (negative : Bool) : List Char := if negative then ['-'] else []

def zeros (n : Nat) : List Char := List.replicate n '0'

/-- Digits with a point among or before them, the point at `place`. -/
def pointed (ds : List Char) (place : Int) : List Char :=
  if place ≤ 0 then '0' :: '.' :: (zeros (-place).toNat ++ ds)
  else ds.take place.toNat ++ '.' :: ds.drop place.toNat

/-- Positional notation without an exponent, and without a point in a whole number. -/
def positional (d : Decimal) : String :=
  let ds := digits d.coefficient
  String.ofList <| sign d.negative ++
    if 0 ≤ d.exponent then ds ++ if d.coefficient = 0 then [] else zeros d.exponent.toNat
    else pointed ds (ds.length + d.exponent)

/-- The text of a number in positional notation. -/
def display {f : BinaryFormat} (x : Binary f) : String :=
  if x.isNaN then "NaN"
  else if x.isInfinite then if x.negative then "-inf" else "inf"
  else (shortest x).positional

/-- The text of a number with four places, a half going to the even neighbour. -/
def fourPlaces {f : BinaryFormat} (x : Binary f) : String :=
  if x.isFinite then
    let n := divEven (f.units x.code * 10000) f.one
    let ds := digits (n % 10000)
    String.ofList (sign x.negative ++ digits (n / 10000) ++ '.' :: (zeros (4 - ds.length) ++ ds))
  else display x

def digit? (c : Char) : Option Nat := if c.isDigit then some (c.toNat - 48) else none

def push (n : Nat) (c : Char) : Nat := n * 10 + (c.toNat - 48)

def ofDigits (cs : List Char) : Nat := cs.foldl push 0

def takeSign : List Char → Bool × List Char
  | '-' :: cs => (true, cs)
  | '+' :: cs => (false, cs)
  | cs => (false, cs)

/-- The exponent at the end of a numeral: nothing, or a mark, a sign and digits. -/
def exponent? : List Char → Option Int
  | [] => some 0
  | c :: cs =>
    if c = 'e' || c = 'E' then
      let (negative, ds) := takeSign cs
      if ds.isEmpty || !ds.all Char.isDigit then none
      else some (if negative then -(ofDigits ds : Int) else ofDigits ds)
    else none

/-- Read an unsigned numeral with digits before or after an optional point. -/
def unsigned? (cs : List Char) : Option (Nat × Int) :=
  let whole := cs.takeWhile Char.isDigit
  let rest := cs.dropWhile Char.isDigit
  let (places, rest) :=
    match rest with
    | '.' :: more => (more.takeWhile Char.isDigit, more.dropWhile Char.isDigit)
    | _ => ([], rest)
  if whole.isEmpty && places.isEmpty then none
  else (exponent? rest).map fun e => (ofDigits (whole ++ places), e - places.length)

/-- Read a number: a numeral, or a name of infinity or of no number in any case. -/
def read? {f : BinaryFormat} (s : String) : Option (Binary f) :=
  let (negative, cs) := takeSign s.toList
  let word := String.ofList (cs.map Char.toLower)
  if word = "inf" || word = "infinity" then some (Binary.infinity negative)
  else if word = "nan" then some Binary.nan
  else (unsigned? cs).map fun (c, e) => toBinary ⟨negative, c, e⟩

/-- The value of digits, if there are any and it is below `bound`. -/
def bounded? (bound : Nat) (ds : List Char) : Option Nat :=
  if ds.isEmpty || !ds.all Char.isDigit then none
  else if ofDigits ds < bound then some (ofDigits ds) else none

def dropPlus : List Char → List Char
  | '+' :: cs => cs
  | cs => cs

/-- Read a natural number below `bound`: an optional plus sign and digits. -/
def natural? (bound : Nat) (s : String) : Option Nat := bounded? bound (dropPlus s.toList)

end Decimal

end CodeSearch
