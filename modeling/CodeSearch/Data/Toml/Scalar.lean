import CodeSearch.Data.Value
import CodeSearch.Number.Decimal
import CodeSearch.Text.Hex
import CodeSearch.Text.Split

/-! # Scalars of TOML

Numbers, truth values, dates and times are runs of plain characters. Underscores may stand
between two digits. Dates and times are checked, but no reader takes them.
-/

namespace CodeSearch

namespace Toml

/-- The characters of a scalar that is no string. -/
def isScalarChar (c : Char) : Bool :=
  c.isAlphanum || c = '_' || c = '+' || c = '-' || c = '.' || c = ':'

/-- The digits of groups with underscores between them. -/
def digits? (isDigit : Char → Bool) (cs : List Char) : Option (List Char) :=
  let parts := Text.splitChars '_' cs
  if parts.all fun part => !part.isEmpty && part.all isDigit then some parts.flatten else none

/-- Decimal digits; the first is zero only if it is alone. -/
def whole? (cs : List Char) : Option (List Char) :=
  (digits? Char.isDigit cs).filter fun ds => ds.head? ≠ some '0' || ds.length = 1

/-- An integer that fits 64 bits with a sign. -/
def fit (negative : Bool) (n : Nat) : Option Value :=
  if negative then if 2 * n ≤ wordSize then some (.integer (-n)) else none
  else if 2 * n < wordSize then some (.integer n) else none

/-- An integer in another base, whose digits follow its mark. -/
def based? (base : Nat) (cs : List Char) : Option Value := do
  let ds ← digits? (fun c => ((Hex.digit? c).map fun d => decide (d < base)).getD false) cs
  let values ← ds.mapM Hex.digit?
  fit false (values.foldl (fun n d => n * base + d) 0)

def integer? : List Char → Option Value
  | '0' :: 'x' :: cs => based? 16 cs
  | '0' :: 'o' :: cs => based? 8 cs
  | '0' :: 'b' :: cs => based? 2 cs
  | cs =>
    let (negative, rest) := Decimal.takeSign cs
    (whole? rest).bind fun ds => fit negative (Decimal.ofDigits ds)

/-- What follows the whole digits of a number: places, an exponent, or both. -/
def tail? (cs : List Char) : Option (List Char) := do
  let (places, rest) ← match cs with
    | '.' :: more =>
      let body := more.takeWhile fun c => c ≠ 'e' && c ≠ 'E'
      (digits? Char.isDigit body).map fun ds => ('.' :: ds, more.drop body.length)
    | _ => some ([], cs)
  match rest with
  | [] => some places
  | mark :: more => do
    guard (mark = 'e' || mark = 'E')
    let (negative, body) := Decimal.takeSign more
    let ds ← digits? Char.isDigit body
    some (places ++ 'e' :: (Decimal.sign negative ++ ds))

/-- A number with a point or an exponent, which must not be too great. -/
def real? (cs : List Char) : Option Value :=
  let (negative, rest) := Decimal.takeSign cs
  if rest = ['i', 'n', 'f'] then some (.real (Binary.infinity negative))
  else if rest = ['n', 'a', 'n'] then some (.real Binary.nan)
  else
    let isHead := fun c => c.isDigit || c = '_'
    let head := rest.takeWhile isHead
    let after := rest.dropWhile isHead
    if after.isEmpty then none
    else do
      let ds ← whole? head
      let tail ← tail? after
      let x : Double ← Decimal.read? (String.ofList (Decimal.sign negative ++ ds ++ tail))
      guard (!(x.isInfinite && !x.negative))
      some (.real x)

/-- A number of two digits up to a bound. -/
def pair? (low high : Nat) (a b : Char) : Option Nat :=
  if a.isDigit && b.isDigit then
    let n := Decimal.ofDigits [a, b]
    if low ≤ n && n ≤ high then some n else none
  else none

def monthDays (year month : Nat) : Nat :=
  if month = 2 then
    if year % 4 = 0 && (year % 100 ≠ 0 || year % 400 = 0) then 29 else 28
  else if month = 4 || month = 6 || month = 9 || month = 11 then 30
  else 31

def date? : List Char → Option (List Char)
  | y :: y' :: y'' :: y''' :: '-' :: m :: m' :: '-' :: d :: d' :: rest => do
    guard ([y, y', y'', y'''].all Char.isDigit)
    let month ← pair? 1 12 m m'
    let _ ← pair? 1 (monthDays (Decimal.ofDigits [y, y', y'', y''']) month) d d'
    some rest
  | _ => none

def time? : List Char → Option (List Char)
  | h :: h' :: ':' :: m :: m' :: ':' :: s :: s' :: rest => do
    let _ ← pair? 0 23 h h'
    let _ ← pair? 0 59 m m'
    let _ ← pair? 0 60 s s'
    match rest with
    | '.' :: more => do
      guard ((more.head?.map Char.isDigit).getD false)
      some (more.dropWhile Char.isDigit)
    | _ => some rest
  | _ => none

/-- Whether a text is nothing or the offset of a time. -/
def isOffset : List Char → Bool
  | [] | ['Z'] | ['z'] => true
  | [sign, h, h', ':', m, m'] =>
    (sign = '+' || sign = '-') && (pair? 0 23 h h').isSome && (pair? 0 59 m m').isSome
  | _ => false

/-- Whether a text is a date, a time or both. -/
def isMoment (cs : List Char) : Bool :=
  match date? cs with
  | some [] => true
  | some (c :: rest) =>
    (c = 'T' || c = 't' || c = ' ') && ((time? rest).map isOffset).getD false
  | none => time? cs = some []

def scalar? (cs : List Char) : Option Value :=
  if cs = ['t', 'r', 'u', 'e'] then some (.bool true)
  else if cs = ['f', 'a', 'l', 's', 'e'] then some (.bool false)
  else if isMoment cs then some .foreign
  else (integer? cs).or (real? cs)

/-- Cut a scalar off a text. A date and a time may have one space between them. -/
def takeScalar (cs : List Char) : List Char × List Char :=
  let token := cs.takeWhile isScalarChar
  match cs.dropWhile isScalarChar with
  | ' ' :: rest =>
    let more := rest.takeWhile isScalarChar
    if date? token = some [] && (time? more).isSome then
      (token ++ ' ' :: more, rest.dropWhile isScalarChar)
    else (token, ' ' :: rest)
  | rest => (token, rest)

end Toml

end CodeSearch
