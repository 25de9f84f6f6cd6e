import CodeSearch.Data.Value
import CodeSearch.Number.Decimal

/-! # Numerals of JSON

A numeral without a point and an exponent is an integer if it fits a word. Any other is
read as a double in steps: the digits that fit a word make a significand, which is
rounded and then multiplied or divided by a rounded power of ten.
-/

namespace CodeSearch

/-- The parts of a numeral as it is spelled. -/
structure Numeral where
  negative : Bool
  whole : List Char
  places : List Char
  exponent : Option (Bool × List Char)

namespace Numeral

/-- A significand of one word and a power of ten. -/
structure Scaled where
  significand : Nat
  exponent : Int

/-- Take digits into the significand while it fits a word, and give back the others. -/
def absorb : Nat → List Char → Nat × List Char
  | n, [] => (n, [])
  | n, c :: cs => if Decimal.push n c < wordSize then absorb (Decimal.push n c) cs else (n, c :: cs)

/-- Whole digits that do not fit raise the exponent; places that do not fit are dropped. -/
def scaled (x : Numeral) : Scaled :=
  let (n, rest) := absorb 0 x.whole
  let (m, dropped) := absorb n x.places
  ⟨m, (rest.length : Int) - ((x.places.length : Int) - dropped.length)⟩

def power (k : Nat) : Double := Binary.ofNat (Nat.pow 10 k)

/-- The greatest exponent for which there is a power of ten. -/
def greatest : Int := 308

/-- Multiply or divide by a power of ten, a large division taking several steps. -/
def scale : Nat → Double → Int → Option Double
  | 0, x, _ => some x
  | fuel + 1, x, e =>
    if -greatest ≤ e && e < 0 then some (x / power (-e).toNat)
    else if 0 ≤ e && e ≤ greatest then
      let y := x * power e.toNat
      if y.isInfinite then none else some y
    else if x.isZero then some x
    else if 0 ≤ e then none
    else scale fuel (x / power 308) (e + greatest)

/-- The double nearest to a scaled significand, in steps. Four divisions leave nothing of
any significand. -/
def Scaled.toDouble (s : Scaled) : Option Double := scale 4 (Binary.ofNat s.significand) s.exponent

/-- The least exponent that a word of 31 bits cannot hold. -/
def exponentBound : Nat := 2147483648

/-- The double that a numeral stands for, if any is near enough. -/
def toDouble (x : Numeral) : Option Double :=
  let s := x.scaled
  let magnitude :=
    match x.exponent with
    | none => s.toDouble
    | some (negative, ds) =>
      let e := Decimal.ofDigits ds
      if exponentBound ≤ e then
        if s.significand ≠ 0 && !negative then none else some (Binary.zero false)
      else Scaled.toDouble ⟨s.significand, if negative then s.exponent - e else s.exponent + e⟩
  magnitude.map fun y => if x.negative then y.neg else y

/-- Whether a numeral is spelled as an integer and its digits fit a word. -/
def isWord (x : Numeral) : Bool :=
  x.places.isEmpty && x.exponent.isNone && Decimal.ofDigits x.whole < wordSize

/-- The value of a numeral. Negative zero and integers below those of 64 bits are doubles. -/
def value (x : Numeral) : Value :=
  let n := Decimal.ofDigits x.whole
  if x.isWord && !x.negative then .integer n
  else if x.isWord && 0 < n && 2 * n ≤ wordSize then .integer (-n)
  else
    match x.toDouble with
    | some y => .real y
    | none => .foreign

end Numeral

end CodeSearch
