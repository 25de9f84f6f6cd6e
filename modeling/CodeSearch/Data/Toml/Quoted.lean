import CodeSearch.Text.Hex

/-! # Strings of TOML

Basic strings have escapes and literal strings have none. Both have a form over several
lines between three quotes, in which a line break right after the opening does not count.
-/

namespace CodeSearch

namespace Toml

/-- Characters that may not stand in a string: controls but the tab. -/
def isControl (c : Char) : Bool := (c < ' ' && c ≠ '\t') || c = '\x7f'

def isBlankChar (c : Char) : Bool := c = ' ' || c = '\t'

/-- A line break at the start of a text, and what follows it. -/
def newline? : List Char → Option (List Char)
  | '\n' :: cs => some cs
  | '\r' :: '\n' :: cs => some cs
  | _ => none

/-- The scalar value with a number, if there is one. -/
def char? (n : Nat) : Option Char := if n.isValidChar then some (Char.ofNat n) else none

/-- Read what follows a backslash, except a line break. -/
def escape? : List Char → Option (Char × List Char)
  | 'b' :: cs => some ('\x08', cs)
  | 't' :: cs => some ('\t', cs)
  | 'n' :: cs => some ('\n', cs)
  | 'f' :: cs => some ('\x0c', cs)
  | 'r' :: cs => some ('\r', cs)
  | '"' :: cs => some ('"', cs)
  | '\\' :: cs => some ('\\', cs)
  | 'u' :: cs =>
    if (cs.take 4).length = 4 then
      ((Hex.value? (cs.take 4)).bind char?).map fun c => (c, cs.drop 4)
    else none
  | 'U' :: cs =>
    if (cs.take 8).length = 8 then
      ((Hex.value? (cs.take 8)).bind char?).map fun c => (c, cs.drop 8)
    else none
  | _ => none

def skipLines : List Char → List Char
  | [] => []
  | '\r' :: '\n' :: cs => skipLines cs
  | c :: cs => if isBlankChar c || c = '\n' then skipLines cs else c :: cs

/-- A string with escapes after its opening quote, on one line. -/
def basic : Nat → List Char → Option (List Char × List Char)
  | 0, _ => none
  | _ + 1, [] => none
  | _ + 1, '"' :: cs => some ([], cs)
  | fuel + 1, '\\' :: cs => do
    let (c, rest) ← escape? cs
    let (s, rest) ← basic fuel rest
    some (c :: s, rest)
  | fuel + 1, c :: cs => do
    guard (!isControl c)
    let (s, rest) ← basic fuel cs
    some (c :: s, rest)

/-- A string without escapes after its opening quote, on one line. -/
def literal : List Char → Option (List Char × List Char)
  | [] => none
  | '\'' :: cs => some ([], cs)
  | c :: cs => do
    guard (!isControl c)
    let (s, rest) ← literal cs
    some (c :: s, rest)

/-- The quotes at the start of a text. Three of them close a string over several lines, and
up to two before those belong to it. -/
def quoteRun (quote : Char) (cs : List Char) : Nat := (cs.takeWhile (· = quote)).length

/-- A string over several lines after its opening. -/
def lines (quote : Char) (escapes : Bool) : Nat → List Char → Option (List Char × List Char)
  | 0, _ => none
  | _ + 1, [] => none
  | fuel + 1, c :: cs =>
    let run := quoteRun quote (c :: cs)
    if 3 ≤ run then
      if run ≤ 5 then some (List.replicate (run - 3) quote, (c :: cs).drop run) else none
    else
      match newline? (c :: cs) with
      | some rest => (lines quote escapes fuel rest).map fun (s, rest) => ('\n' :: s, rest)
      | none =>
        if escapes && c = '\\' then
          match newline? (cs.dropWhile isBlankChar) with
          | some rest => lines quote escapes fuel (skipLines rest)
          | none => do
            let (d, rest) ← escape? cs
            let (s, rest) ← lines quote escapes fuel rest
            some (d :: s, rest)
        else do
          guard (!isControl c)
          let (s, rest) ← lines quote escapes fuel cs
          some (c :: s, rest)

def dropNewline (cs : List Char) : List Char := (newline? cs).getD cs

def quoted? : List Char → Option (List Char × List Char)
  | '"' :: cs => basic (cs.length + 1) cs
  | '\'' :: cs => literal cs
  | _ => none

def string? : List Char → Option (List Char × List Char)
  | '"' :: '"' :: '"' :: cs => lines '"' true (cs.length + 1) (dropNewline cs)
  | '\'' :: '\'' :: '\'' :: cs => lines '\'' false (cs.length + 1) (dropNewline cs)
  | cs => quoted? cs

end Toml

end CodeSearch
