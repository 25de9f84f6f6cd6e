import CodeSearch.Scan.Glob
import CodeSearch.Text.Blank
import CodeSearch.Text.Split

/-! # Ignore rules

A line of a rule file is a glob for paths below the directory of the file. It says that
what matches is left out or, after an exclamation mark, that it is not. The last line that
matches decides.
-/

namespace CodeSearch

structure Rule where
  glob : Glob
  /-- Whether what matches is left out. -/
  ignores : Bool
  onlyDirectories : Bool

namespace Rule

/-- Drop the blanks at the end, unless the last one is escaped. -/
def trimLine (cs : List Char) : List Char :=
  if ['\\', ' '].isSuffixOf cs then cs else Text.trimEnd cs

/-- What the marks at the ends of a line say. -/
structure Marks where
  negated : Bool
  /-- Whether only paths from the directory of the file on match. -/
  anchored : Bool
  onlyDirectories : Bool
  glob : List Char

/-- Take the marks off the start of a line. -/
def openMarks : List Char → Marks
  | '\\' :: '!' :: cs => ⟨false, false, false, '!' :: cs⟩
  | '\\' :: '#' :: cs => ⟨false, false, false, '#' :: cs⟩
  | '!' :: '/' :: cs => ⟨true, true, false, cs⟩
  | '!' :: cs => ⟨true, false, false, cs⟩
  | '/' :: cs => ⟨false, true, false, cs⟩
  | cs => ⟨false, false, false, cs⟩

/-- Take a slash off the end, and a backslash before it. -/
def closeMarks (m : Marks) : Marks :=
  match m.glob.reverse with
  | '/' :: '\\' :: back => { m with onlyDirectories := true, glob := back.reverse }
  | '/' :: back => { m with onlyDirectories := true, glob := back.reverse }
  | _ => m

/-- Let a glob without a slash match at any depth. -/
def anyDepth (m : Marks) : List Char :=
  let given := ['*', '*', '/'].isPrefixOf m.glob || m.glob = ['*', '*']
  if m.anchored || m.glob.contains '/' || given then m.glob else '*' :: '*' :: '/' :: m.glob

/-- Two stars at the end take what is in a directory, but not the directory. -/
def insideOnly (cs : List Char) : List Char :=
  if ['/', '*', '*'].isSuffixOf cs then cs ++ ['/', '*'] else cs

/-- The rule of a line, if it has one. -/
def parse? (line : List Char) : Option Rule :=
  let cs := trimLine line
  if line.head? = some '#' || cs.isEmpty then none
  else
    let m := closeMarks (openMarks cs)
    (Glob.parse? (insideOnly (anyDepth m))).map fun g => ⟨g, !m.negated, m.onlyDirectories⟩

def isFor (r : Rule) (path : Bytes) (isDirectory : Bool) : Bool :=
  r.glob.accepts path && (!r.onlyDirectories || isDirectory)

/-- Drop the byte order marks at the start. -/
def dropMarks (cs : List Char) : List Char := cs.dropWhile (· = '\ufeff')

/-- The lines up to the first that is not well formed. -/
def goodLines (bytes : Bytes) : List (List Char) :=
  let lines := Text.lineChars ((Utf8.pieces bytes).map fun piece => piece.getD '\x00')
  let bad := ((Utf8.pieces bytes).takeWhile Option.isSome).count (some '\n')
  if (Utf8.pieces bytes).all Option.isSome then lines else lines.take bad

def ofBytes (bytes : Bytes) : List Rule :=
  match goodLines bytes with
  | [] => []
  | line :: lines => (dropMarks line :: lines).filterMap parse?

/-- Whether rules leave a path out, if one of them is for it. -/
def verdict? (rules : List Rule) (path : Bytes) (isDirectory : Bool) : Option Bool :=
  (rules.reverse.find? fun r => r.isFor path isDirectory).map (·.ignores)

end Rule

end CodeSearch
