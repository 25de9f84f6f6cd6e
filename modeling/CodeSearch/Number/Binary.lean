import CodeSearch.Number.Word

/-! # Binary interchange numbers

A number has a sign and a magnitude code whose order is the order of the magnitudes.
Magnitudes are counted in units of the smallest one above zero, so that a sum, a product
or a quotient is an exact ratio of natural numbers that is rounded once, ties to even.
-/

namespace CodeSearch

/-- A format is given by the digits of its significand and the bits of its exponent. -/
structure BinaryFormat where
  precision : Nat
  exponentBits : Nat
  deriving DecidableEq

namespace BinaryFormat

def single : BinaryFormat := ⟨24, 8⟩

def double : BinaryFormat := ⟨53, 11⟩

variable (f : BinaryFormat)

/-- One is this many units. -/
def one : Nat := Nat.pow 2 (Nat.pow 2 (f.exponentBits - 1) + f.precision - 3)

/-- The code after that of the greatest finite magnitude. -/
def infinity : Nat := (Nat.pow 2 f.exponentBits - 1) * Nat.pow 2 (f.precision - 1)

/-- The codes of magnitudes, those above infinity included. -/
def codes : Nat := Nat.pow 2 f.exponentBits * Nat.pow 2 (f.precision - 1)

theorem infinity_lt_codes : f.infinity < f.codes := by
  unfold infinity codes
  have h : 0 < Nat.pow 2 (f.precision - 1) := Nat.two_pow_pos _
  have h' : 0 < Nat.pow 2 f.exponentBits := Nat.two_pow_pos _
  exact Nat.mul_lt_mul_of_pos_right (by omega) h

/-- The units of a finite magnitude. -/
def units (code : Nat) : Nat :=
  let half := Nat.pow 2 (f.precision - 1)
  if code < 2 * half then code else (code % half + half) * Nat.pow 2 (code / half - 1)

end BinaryFormat

/-- The quotient to the nearest natural number, a tie going to the even one. -/
def divEven (n d : Nat) : Nat :=
  if 2 * (n % d) > d || (2 * (n % d) = d && n / d % 2 = 1) then n / d + 1 else n / d

/-- The code of the magnitude nearest to `n / d` units, a tie going to the even code. -/
def BinaryFormat.nearest (f : BinaryFormat) (n d : Nat) : Nat :=
  let shift := (n / d).log2 + 1 - f.precision
  min (shift * Nat.pow 2 (f.precision - 1) + divEven n (d * Nat.pow 2 shift)) f.infinity

/-- A number of a binary format. Codes above infinity stand for no number. -/
structure Binary (f : BinaryFormat) where
  negative : Bool
  code : Nat
  code_lt : code < f.codes
  deriving DecidableEq

abbrev Single := Binary .single

abbrev Double := Binary .double

namespace Binary

variable {f : BinaryFormat}

/-- The number with a sign and a code, cut at infinity. -/
def ofCode (negative : Bool) (code : Nat) : Binary f :=
  ⟨negative, min code f.infinity, Nat.lt_of_le_of_lt (Nat.min_le_right ..) f.infinity_lt_codes⟩

def zero (negative : Bool) : Binary f := ofCode negative 0

def infinity (negative : Bool) : Binary f := ofCode negative f.infinity

/-- The quiet code that stands for no number. -/
def nan : Binary f :=
  ⟨false, f.codes - Nat.pow 2 (f.precision - 2), by
    have : 0 < f.codes := Nat.lt_of_le_of_lt (Nat.zero_le _) f.infinity_lt_codes
    have : 0 < Nat.pow 2 (f.precision - 2) := Nat.two_pow_pos _
    omega⟩

instance : Inhabited (Binary f) := ⟨zero false⟩

def isNaN (x : Binary f) : Bool := f.infinity < x.code

def isInfinite (x : Binary f) : Bool := x.code = f.infinity

def isFinite (x : Binary f) : Bool := x.code < f.infinity

def isZero (x : Binary f) : Bool := x.code = 0

def neg (x : Binary f) : Binary f := { x with negative := !x.negative }

/-- The signed units of a finite number. -/
def units (x : Binary f) : Int :=
  if x.negative then -(f.units x.code : Int) else f.units x.code

/-- The number nearest to `± n / d` units. -/
def ofUnits (negative : Bool) (n d : Nat) : Binary f := ofCode negative (f.nearest n d)

/-- The number nearest to `± n / d`. -/
def ofRatio (negative : Bool) (n d : Nat) : Binary f := ofUnits negative (n * f.one) d

def ofNat (n : Nat) : Binary f := ofRatio false n 1

def ofInt (n : Int) : Binary f := ofRatio (n < 0) n.natAbs 1

/-- A number of one format to the nearest of another. -/
def convert {g : BinaryFormat} (x : Binary f) : Binary g :=
  if x.isNaN then nan
  else if x.isInfinite then infinity x.negative
  else ofRatio x.negative (f.units x.code) f.one

/-- The sum; an exact zero is negative only if both terms are. -/
def add (x y : Binary f) : Binary f :=
  if x.isNaN || y.isNaN then nan
  else if x.isInfinite then
    if y.isInfinite && x.negative != y.negative then nan else x
  else if y.isInfinite then y
  else
    let sum := x.units + y.units
    if sum = 0 then zero (x.negative && y.negative) else ofUnits (sum < 0) sum.natAbs 1

def sub (x y : Binary f) : Binary f := x.add y.neg

def mul (x y : Binary f) : Binary f :=
  let negative := x.negative != y.negative
  if x.isNaN || y.isNaN then nan
  else if x.isInfinite || y.isInfinite then
    if x.isZero || y.isZero then nan else infinity negative
  else ofUnits negative (f.units x.code * f.units y.code) f.one

def div (x y : Binary f) : Binary f :=
  let negative := x.negative != y.negative
  if x.isNaN || y.isNaN then nan
  else if x.isInfinite then if y.isInfinite then nan else infinity negative
  else if y.isInfinite then zero negative
  else if y.isZero then if x.isZero then nan else infinity negative
  else ofUnits negative (f.units x.code * f.one) (f.units y.code)

/-- The greatest natural number whose square is at most `n`, for `n < 4 ^ digits`. -/
def floorSqrt : Nat → Nat → Nat
  | 0, _ => 0
  | digits + 1, n =>
    let r := 2 * floorSqrt digits (n / 4)
    if (r + 1) * (r + 1) ≤ n then r + 1 else r

/-- The square root. The root of the units carries more digits than the format keeps, so
one digit that says whether it is exact decides the rounding. -/
def sqrt (x : Binary f) : Binary f :=
  if x.isNaN then nan
  else if x.isZero then x
  else if x.negative then nan
  else if x.isInfinite then x
  else
    let n := f.units x.code * f.one
    let r := floorSqrt (n.log2 / 2 + 1) n
    ofUnits false (2 * r + if r * r = n then 0 else 1) 2

instance : Add (Binary f) := ⟨add⟩
instance : Sub (Binary f) := ⟨sub⟩
instance : Mul (Binary f) := ⟨mul⟩
instance : Div (Binary f) := ⟨div⟩
instance : Neg (Binary f) := ⟨neg⟩

/-- The place of a number among the numbers, both zeros at the same place. -/
def place (x : Binary f) : Int := if x.negative then -(x.code : Int) else x.code

/-- Less than, which nothing is beside a code that stands for no number. -/
def lt (x y : Binary f) : Bool := !x.isNaN && !y.isNaN && x.place < y.place

/-- Equal as numbers: the zeros are equal, and what is no number equals nothing. -/
def same (x y : Binary f) : Bool := !x.isNaN && !y.isNaN && x.place = y.place

/-- The place of a number in the order of all codes, where `-0` comes just before `+0`. -/
def rank (x : Binary f) : Int := if x.negative then -(x.code : Int) - 1 else x.code

theorem rank_injective {x y : Binary f} (h : x.rank = y.rank) : x = y := by
  obtain ⟨a, m, _⟩ := x
  obtain ⟨b, n, _⟩ := y
  simp only [rank] at h
  cases a <;> cases b <;> simp_all <;> omega

/-- Below the same bound, what has the lower rank is below it too. -/
theorem lt_of_rank_le {x y t : Binary f} (hx : x.isNaN = false) (h : x.rank ≤ y.rank)
    (hy : y.lt t = true) : x.lt t = true := by
  simp only [lt, Bool.and_eq_true, Bool.not_eq_true', decide_eq_true_eq] at hy ⊢
  refine ⟨⟨hx, hy.1.2⟩, ?_⟩
  have := hy.2
  simp only [rank, place] at *
  split at h <;> split at h <;> simp_all <;> omega

def toBits (x : Binary f) : Nat := (if x.negative then f.codes else 0) + x.code

def ofBits (bits : Nat) : Binary f :=
  ⟨bits / f.codes % 2 = 1, bits % f.codes,
    Nat.mod_lt _ (Nat.lt_of_le_of_lt (Nat.zero_le _) f.infinity_lt_codes)⟩

end Binary

end CodeSearch
