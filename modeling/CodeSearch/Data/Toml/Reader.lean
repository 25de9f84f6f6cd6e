import CodeSearch.Data.Toml.Quoted
import CodeSearch.Data.Toml.Scalar
import CodeSearch.Data.Toml.Tables

/-! # Reading TOML

A document is a sequence of lines: a key with its value, a header, or nothing, each with an
optional comment. Lists may go over several lines.
-/

namespace CodeSearch

namespace Toml

def skipBlanks (cs : List Char) : List Char := cs.dropWhile isBlankChar

def isBareChar (c : Char) : Bool := c.isAlphanum || c = '_' || c = '-'

def keyPart (cs : List Char) : Option (String × List Char) :=
  let bare := cs.takeWhile isBareChar
  if bare.isEmpty then (quoted? cs).map fun (s, rest) => (String.ofList s, rest)
  else some (String.ofList bare, cs.dropWhile isBareChar)

/-- How many brackets may be open at once, and how many parts a key may have. -/
def greatestDepth : Nat := 79

/-- A key of at most so many parts, with dots and blanks between them. -/
def keyUpTo : Nat → List Char → Option (List String × List Char)
  | 0, _ => none
  | count + 1, cs => do
    let (part, rest) ← keyPart (skipBlanks cs)
    match skipBlanks rest with
    | '.' :: more =>
      let (parts, rest) ← keyUpTo count more
      some (part :: parts, rest)
    | rest => some ([part], rest)

def key (cs : List Char) : Option (List String × List Char) := keyUpTo greatestDepth cs

/-- Drop a comment up to the end of its line, unless it holds a control. -/
def comment? : List Char → Option (List Char)
  | '#' :: cs =>
    let rest := cs.dropWhile fun c => !isControl c
    match rest with
    | [] => some []
    | _ => if (newline? rest).isSome then some rest else none
  | cs => some cs

def skipSpace : Nat → List Char → Option (List Char)
  | 0, cs => some cs
  | fuel + 1, cs =>
    let rest := skipLines cs
    match rest with
    | '#' :: _ => (comment? rest).bind (skipSpace fuel)
    | _ => some rest

mutual

/-- A value that may open so many brackets; each step down or along spends fuel. -/
def value : Nat → Nat → List Char → Option (Value × List Char)
  | 0, _, _ => none
  | fuel + 1, depth, cs =>
    match cs with
    | '"' :: _ => (string? cs).map fun (s, rest) => (.text (String.ofList s), rest)
    | '\'' :: _ => (string? cs).map fun (s, rest) => (.text (String.ofList s), rest)
    | '[' :: more => do
      guard (0 < depth)
      let (vs, rest) ← items fuel (depth - 1) more
      some (.list vs, rest)
    | '\x7b' :: more => do
      guard (0 < depth)
      match skipBlanks more with
      | '\x7d' :: rest => some (.record [], rest)
      | rest =>
        let (es, rest) ← fields fuel (depth - 1) [] rest
        some (.record (fieldsOf es), rest)
    | _ =>
      let (token, rest) := takeScalar cs
      (scalar? token).map fun v => (v, rest)

/-- The items of a list after its opening bracket or a comma. -/
def items : Nat → Nat → List Char → Option (List Value × List Char)
  | 0, _, _ => none
  | fuel + 1, depth, cs => do
    match ← skipSpace cs.length cs with
    | ']' :: rest => some ([], rest)
    | cs =>
      let (v, rest) ← value fuel depth cs
      match ← skipSpace rest.length rest with
      | ']' :: rest => some ([v], rest)
      | ',' :: rest =>
        let (vs, rest) ← items fuel depth rest
        some (v :: vs, rest)
      | _ => none

/-- The fields of a table in braces after those read so far, at least one. -/
def fields : Nat → Nat → Entries → List Char → Option (Entries × List Char)
  | 0, _, _, _ => none
  | fuel + 1, depth, es, cs => do
    let (k, rest) ← key cs
    match rest with
    | '=' :: more =>
      let (v, rest) ← value fuel depth (skipBlanks more)
      let es ← es.define k v
      match skipBlanks rest with
      | '\x7d' :: rest => some (es, rest)
      | ',' :: rest => fields fuel depth es rest
      | _ => none
    | _ => none

end

/-- What a document holds so far, and the header that new keys come under. -/
structure Document where
  entries : Entries
  header : List String

/-- Open the table of a header in single or double brackets. -/
def Document.open (d : Document) (isList : Bool) (k : List String) : Option Document :=
  match k.reverse with
  | [] => none
  | last :: front =>
    let change := if isList then Entries.addTable last else Entries.openTable last
    (Entries.descend change front.reverse d.entries).map fun es => ⟨es, k⟩

/-- Put a value under a key below the current header. -/
def Document.define (d : Document) (k : List String) (v : Value) : Option Document :=
  (Entries.descend (Entries.define k v) d.header d.entries).map fun es => { d with entries := es }

/-- A header after its brackets, up to the closing ones. -/
def header (isList : Bool) (d : Document) (cs : List Char) : Option (Document × List Char) := do
  let (k, rest) ← key cs
  match isList, rest with
  | true, ']' :: ']' :: rest => (d.open true k).map fun d => (d, rest)
  | false, ']' :: rest => (d.open false k).map fun d => (d, rest)
  | _, _ => none

/-- One line without its comment and its end. -/
def line (d : Document) (cs : List Char) : Option (Document × List Char) :=
  match skipBlanks cs with
  | '[' :: '[' :: cs => header true d cs
  | '[' :: cs => header false d cs
  | cs =>
    match cs with
    | [] => some (d, [])
    | c :: _ =>
      if c = '#' || c = '\n' || c = '\r' then some (d, cs)
      else do
        let (k, rest) ← key cs
        match rest with
        | '=' :: more =>
          let (v, rest) ← value (3 * more.length + 3) greatestDepth (skipBlanks more)
          (d.define k v).map fun d => (d, rest)
        | _ => none

/-- The lines of a document, each of which takes a character or is the last. -/
def lineLoop : Nat → Document → List Char → Option Document
  | 0, _, _ => none
  | fuel + 1, d, cs => do
    let (d, rest) ← line d cs
    match ← comment? (skipBlanks rest) with
    | [] => some d
    | rest => (newline? rest).bind (lineLoop fuel d)

/-- The record of a document, which may start with a byte order mark. -/
def parse? (text : String) : Option Value :=
  let cs := match text.toList with
    | '\ufeff' :: cs => cs
    | cs => cs
  (lineLoop (cs.length + 1) ⟨[], []⟩ cs).map fun d => .record (fieldsOf d.entries)

/-- In TOML a record may have more items than fields, and a unit is an empty table or list. -/
def dialect : Dialect where
  spareItems := true
  isUnit
    | .record [] | .list [] => true
    | _ => false

end Toml

end CodeSearch
