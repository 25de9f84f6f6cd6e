import CodeSearch.Number.Binary

/-! # Documents

A document of settings or records is a tree of values. Readers turn values into the
types of the library: a record is given by named fields or by its fields in order, and
a choice by its name.
-/

namespace CodeSearch

/-- The values of a document. -/
inductive Value where
  | null
  | bool (b : Bool)
  | integer (n : Int)
  | real (x : Double)
  /-- A single precision number; its text has the digits that fix it among those. -/
  | single (x : Single)
  | text (s : String)
  | list (items : List Value)
  | record (fields : List (String × Value))
  /-- A value of the document format that no reader takes, such as a date. -/
  | foreign
  deriving Inhabited

/-- What document formats do differently in records and choices. -/
structure Dialect where
  /-- Whether a record in list form may have more items than fields. -/
  spareItems : Bool
  /-- The values that may stand behind the name of a choice. -/
  isUnit : Value → Bool

namespace Value

/-- An integer from zero up to, but not including, the bound. -/
def natural? (bound : Nat) : Value → Option Nat
  | integer n => if 0 ≤ n && n < bound then some n.toNat else none
  | _ => none

/-- A word of 64 bits. -/
def word? : Value → Option Nat := natural? wordSize

def bool? : Value → Option Bool
  | bool b => some b
  | _ => none

def text? : Value → Option String
  | text s => some s
  | _ => none

/-- A number in single precision; doubles and integers are rounded. -/
def single? : Value → Option Single
  | integer n => some (Binary.ofInt n)
  | real x => some x.convert
  | single x => some x
  | _ => none

/-- A list whose items can all be read. -/
def list? {α : Type} (read : Value → Option α) : Value → Option (List α)
  | list items => items.mapM read
  | _ => none

/-- A value that may be missing. -/
def optional? {α : Type} (read : Value → Option α) : Value → Option (Option α)
  | null => some none
  | v => (read v).map some

/-- One of some named choices, written as its name or as a record from its name to a unit. -/
def choice? {α : Type} (dialect : Dialect) (named : String → Option α) : Value → Option α
  | text s => named s
  | record [(s, v)] => if dialect.isUnit v then named s else none
  | _ => none

/-- The value of a field. -/
def field? (name : String) (fields : List (String × Value)) : Option Value :=
  (fields.find? fun field => field.1 = name).map (·.2)

/-- The values of the named fields, in order. A known field may not be given twice. -/
def fields? (dialect : Dialect) (names : List String) : Value → Option (List (Option Value))
  | list items =>
    if dialect.spareItems || items.length ≤ names.length then
      some (names.zipIdx.map fun (_, i) => items[i]?)
    else none
  | record fields =>
    if names.all fun name => (fields.filter fun field => field.1 = name).length ≤ 1 then
      some (names.map fun name => field? name fields)
    else none
  | _ => none

/-- A field that must be there. -/
def required {α : Type} (read : Value → Option α) (v : Option Value) : Option α := v.bind read

/-- A field that has a value of its own where it is not given. -/
def orElse {α : Type} (default : α) (read : Value → Option α) : Option Value → Option α
  | none => some default
  | some v => read v

/-- A field of a record that is written only if it is set. -/
def ifSet (name : String) : Option Value → List (String × Value)
  | none => []
  | some v => [(name, v)]

theorem word?_integer {n : Nat} (h : n < wordSize) : word? (.integer n) = some n := by
  simp [word?, natural?, h]

end Value

end CodeSearch
