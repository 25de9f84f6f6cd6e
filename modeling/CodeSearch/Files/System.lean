import CodeSearch.Files.Path
import CodeSearch.Text.Utf8

/-! # Files

A place is the list of names from the root down. Each place holds at most one entry, and
the root holds a directory.
-/

namespace CodeSearch

abbrev Place := List String

inductive Entry where
  | file (content : Bytes)
  | link (target : Path)
  | directory
  deriving DecidableEq

structure FileSystem where
  entries : List (Place × Entry)
  /-- The place that paths start from. -/
  here : Place

/-- Why an operation on files fails. -/
inductive FileError where
  | missing
  | notDirectory
  | isDirectory
  | present
  | linkLoop
  | nameTooLong
  | badPath
  deriving DecidableEq, Repr

def FileError.message : FileError → String
  | missing => "No such file or directory (os error 2)"
  | notDirectory => "Not a directory (os error 20)"
  | isDirectory => "Is a directory (os error 21)"
  | present => "File exists (os error 17)"
  | linkLoop => "Too many levels of symbolic links (os error 40)"
  | nameTooLong => "File name too long (os error 36)"
  | badPath => "file name contained an unexpected NUL byte"

namespace FileSystem

def find? (p : Place) : List (Place × Entry) → Option Entry
  | [] => none
  | (q, e) :: rest => if q = p then some e else find? p rest

def get? (fs : FileSystem) (p : Place) : Option Entry :=
  if p = [] then some .directory else find? p fs.entries

/-- Put an entry at a place, in place of what was there. -/
def set (fs : FileSystem) (p : Place) (e : Entry) : FileSystem :=
  { fs with entries := (p, e) :: fs.entries.filter fun entry => entry.1 ≠ p }

/-- Remove the entry at a place and all below it. -/
def erase (fs : FileSystem) (p : Place) : FileSystem :=
  { fs with entries := fs.entries.filter fun entry => !p.isPrefixOf entry.1 }

/-- The entries below a place, each with the names that lead down to it. -/
def below (fs : FileSystem) (p : Place) : List (Place × Entry) :=
  (fs.entries.filter fun entry => p.isPrefixOf entry.1 && entry.1 ≠ p).map fun entry =>
    (entry.1.drop p.length, entry.2)

/-- The names in a directory, with their entries. -/
def children (fs : FileSystem) (p : Place) : List (String × Entry) :=
  (fs.below p).filterMap fun
    | ([name], e) => some (name, e)
    | _ => none

theorem find?_filter {p q : Place} (h : q ≠ p) (es : List (Place × Entry)) :
    find? q (es.filter fun entry => entry.1 ≠ p) = find? q es := by
  induction es with
  | nil => rfl
  | cons e es ih =>
    obtain ⟨r, e⟩ := e
    by_cases hr : r = p
    · subst hr
      simpa [find?, Ne.symm h] using ih
    · by_cases hq : r = q
      · subst hq
        simp [find?, hr]
      · simpa [find?, hr, hq] using ih

theorem get?_set {fs : FileSystem} {p : Place} (hp : p ≠ []) (q : Place) (e : Entry) :
    (fs.set p e).get? q = if q = p then some e else fs.get? q := by
  by_cases hq : q = p
  · subst hq
    simp [get?, set, find?, hp]
  · have : p ≠ q := fun h => hq h.symm
    simp only [get?, set, find?, this, if_false, hq]
    split
    · rfl
    · exact find?_filter hq fs.entries

end FileSystem

end CodeSearch
