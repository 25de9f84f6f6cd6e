import CodeSearch.Files.Path
import CodeSearch.Text.Letter

/-! # Source languages

The extension of a file decides the grammar that reads it. Only C++ has classes.
-/

namespace CodeSearch

inductive Language where
  | c
  | cpp
  deriving DecidableEq, Repr

namespace Language

def all : List Language := [c, cpp]

def name : Language → String
  | c => "c"
  | cpp => "cpp"

def ofName? (s : String) : Option Language := all.find? fun l => l.name = s

def hasClasses : Language → Bool
  | c => false
  | cpp => true

/-- The extensions of headers and sources, in lower case. -/
def extensions : Language → List String
  | c => ["c", "h"]
  | cpp => ["cpp", "cc", "cxx", "hpp", "hh", "hxx"]

/-- The language of an extension in any case, with or without dots before it. -/
def ofExtension? (ext : String) : Option Language :=
  let bare := Text.lower (String.ofList (ext.toList.dropWhile (· = '.')))
  all.find? fun l => l.extensions.contains bare

def ofPath? (p : Path) : Option Language := p.extension?.bind ofExtension?

theorem ofName?_name (l : Language) : ofName? l.name = some l := by cases l <;> decide

end Language

end CodeSearch
