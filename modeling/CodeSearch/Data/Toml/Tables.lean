import CodeSearch.Data.Value

/-! # Tables of TOML

A document fills a table step by step. Each table remembers how it came about, since that
decides which later lines may add to it.
-/

namespace CodeSearch

namespace Toml

/-- How a table came about. -/
inductive Origin where
  /-- As part of a longer header. -/
  | implied
  /-- By a header of its own. -/
  | header
  /-- By a dotted key. -/
  | dotted
  deriving DecidableEq

inductive Item where
  | value (v : Value)
  | table (origin : Origin) (entries : List (String × Item))
  /-- The tables under a header in double brackets, the latest first. -/
  | tables (items : List (List (String × Item)))

abbrev Entries := List (String × Item)

namespace Entries

def find? (key : String) : List (String × Item) → Option Item
  | [] => none
  | (k, item) :: es => if k = key then some item else find? key es

def put (key : String) (item : Item) (es : Entries) : Entries :=
  (es.filter fun e => e.1 ≠ key) ++ [(key, item)]

/-- Change the entries that a header leads to. Only tables are on the way. -/
def descend (change : Entries → Option Entries) : List String → Entries → Option Entries
  | [], es => change es
  | key :: keys, es =>
    match find? key es with
    | none => (descend change keys []).map fun sub => put key (.table .implied sub) es
    | some (.value _) => none
    | some (.table origin sub) =>
      (descend change keys sub).map fun sub => put key (.table origin sub) es
    | some (.tables []) => none
    | some (.tables (last :: items)) =>
      (descend change keys last).map fun last => put key (.tables (last :: items)) es

/-- Put a value under a dotted key. The table it goes into must be one of dotted keys, and
no table on the way may have a header of its own. -/
def assign (value : Value) (last : String) : List String → Origin → Entries → Option Entries
  | [], origin, es =>
    if origin = .dotted && (find? last es).isNone then some (put last (.value value) es) else none
  | key :: keys, _, es =>
    match find? key es with
    | none => (assign value last keys .dotted []).map fun sub => put key (.table .dotted sub) es
    | some (.table .header _) => none
    | some (.table origin sub) =>
      (assign value last keys origin sub).map fun sub => put key (.table origin sub) es
    | some (.tables (t :: items)) =>
      (assign value last keys .header t).map fun t => put key (.tables (t :: items)) es
    | _ => none

/-- Put a value under a key of one or more parts. -/
def define (key : List String) (value : Value) (es : Entries) : Option Entries :=
  match key.reverse with
  | [] => none
  | last :: front => assign value last front.reverse .dotted es

/-- Open the table of a header, which may have been implied before but not opened. -/
def openTable (key : String) (es : Entries) : Option Entries :=
  match find? key es with
  | none => some (put key (.table .header []) es)
  | some (.table .implied sub) => some (put key (.table .header sub) es)
  | _ => none

/-- Add a table under a header in double brackets. -/
def addTable (key : String) (es : Entries) : Option Entries :=
  match find? key es with
  | none => some (put key (.tables [[]]) es)
  | some (.tables items) => some (put key (.tables ([] :: items)) es)
  | _ => none

end Entries

mutual

def Item.toValue : Item → Value
  | .value v => v
  | .table _ es => .record (fieldsOf es)
  | .tables items => .list (recordsOf items).reverse

def fieldsOf : List (String × Item) → List (String × Value)
  | [] => []
  | (key, item) :: es => (key, item.toValue) :: fieldsOf es

def recordsOf : List (List (String × Item)) → List Value
  | [] => []
  | es :: items => .record (fieldsOf es) :: recordsOf items

end

end Toml

end CodeSearch
