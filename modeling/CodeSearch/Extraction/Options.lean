import CodeSearch.Data.Value
import CodeSearch.Language

/-! # Options of extraction -/

namespace CodeSearch

/-- What decides whether the scope of a function counts as a class or as a struct. -/
inductive Attribution where
  /-- The language alone: a class in C++, a struct in C. -/
  | byLanguage
  /-- The kind of the scope, where it is known. -/
  | byScopeKind
  deriving DecidableEq, Repr

namespace Attribution

def all : List Attribution := [byLanguage, byScopeKind]

def name : Attribution → String
  | byLanguage => "by_language"
  | byScopeKind => "by_scope_kind"

def ofName? (s : String) : Option Attribution := all.find? fun a => a.name = s

end Attribution

structure Options where
  /-- Whether functions inside a class or a struct get a chunk of their own. -/
  nestMembers : Bool
  attribution : Attribution
  /-- The languages to extract, all of them if none is listed. -/
  languages : List Language
  /-- Longer sources are left out. -/
  maxBytes : Nat
  deriving DecidableEq

namespace Options

def standard : Options := ⟨true, .byLanguage, [], 4194304⟩

/-- No chunk contains another. -/
def strict : Options := { standard with nestMembers := false }

instance : Inhabited Options := ⟨standard⟩

def allows (o : Options) (l : Language) : Bool := o.languages.isEmpty || o.languages.contains l

/-- What is wrong with the options, if anything is. -/
def fault? (o : Options) : Option String :=
  if o.maxBytes = 0 then some "max_file_bytes must be > 0" else none

def invalid (fault : String) : String := "Invalid configuration: " ++ fault

def fieldNames : List String :=
  ["nest_members_in_scopes", "scope_attribution", "supported_languages", "max_file_bytes"]

def ofFields? (dialect : Dialect) : List (Option Value) → Option Options
  | [nest, attribution, languages, maxBytes] => do
    some
      { nestMembers := ← Value.orElse standard.nestMembers Value.bool? nest
        attribution :=
          ← Value.orElse standard.attribution (Value.choice? dialect Attribution.ofName?)
            attribution
        languages :=
          ← Value.orElse [] (Value.list? (Value.choice? dialect Language.ofName?)) languages
        maxBytes := ← Value.orElse standard.maxBytes Value.word? maxBytes }
  | _ => none

/-- The options of a document; fields that it leaves out keep their standard values. -/
def ofValue? (dialect : Dialect) (v : Value) : Option Options :=
  (Value.fields? dialect fieldNames v).bind (ofFields? dialect)

def toValue (o : Options) : Value :=
  .record
    [("nest_members_in_scopes", .bool o.nestMembers),
      ("scope_attribution", .text o.attribution.name),
      ("supported_languages", .list (o.languages.map fun l => .text l.name)),
      ("max_file_bytes", .integer o.maxBytes)]

end Options

end CodeSearch
