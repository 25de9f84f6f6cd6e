import CodeSearch.Text.Blank
import CodeSearch.Text.Letter

/-! # Kinds of chunks -/

namespace CodeSearch

inductive Kind where
  | function
  | testCase
  | classType
  | structType
  | arrayInit
  | comment
  deriving DecidableEq, Repr

namespace Kind

def all : List Kind := [function, testCase, classType, structType, arrayInit, comment]

def name : Kind → String
  | function => "function"
  | testCase => "test_case_function"
  | classType => "class"
  | structType => "struct"
  | arrayInit => "array_init"
  | comment => "comment"

def ofName? (s : String) : Option Kind := all.find? fun k => k.name = s

/-- The kind that a user names, in any case and between any blanks. -/
def parse? (s : String) : Option Kind := ofName? (Text.lower (Text.trim s))

/-- What to tell a user who names no kind. -/
def unknown (s : String) : String :=
  "unknown chunk kind '" ++ s ++ "' (expected one of: " ++ ", ".intercalate (all.map name) ++ ")"

def isFunction : Kind → Bool
  | function | testCase => true
  | _ => false

/-- Kinds that may hold members. -/
def isContainer : Kind → Bool
  | classType | structType => true
  | _ => false

theorem ofName?_name (k : Kind) : ofName? k.name = some k := by cases k <;> decide

end Kind

end CodeSearch
