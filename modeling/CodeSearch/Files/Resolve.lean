import CodeSearch.Files.System

/-! # From paths to places

A path is followed piece by piece. Every piece but the last must lead to a directory, and
a link stands for the path that it holds. A chain of too many links counts as a loop.
-/

namespace CodeSearch

namespace FileSystem

/-- Where a path starts, seen from a place, and the pieces after that. -/
def origin (base : Place) (p : Path) : Place × List String :=
  if p.isAbsolute then ([], p.pieces.tail) else (base, p.pieces)

def nameLimit : Nat := 255

/-- The bytes that a path has too many of. -/
def pathLimit : Nat := 4096

/-- Follow pieces from a place. `jump` goes on behind a link. -/
def walk (fs : FileSystem) (follow : Bool)
    (jump : Place → List String → Except FileError Place) :
    Place → List String → Except FileError Place
  | base, [] => .ok base
  | base, piece :: rest =>
    match Path.step? piece with
    | some .up => walk fs follow jump base.dropLast rest
    | some (.name s) =>
      if nameLimit < s.utf8ByteSize then .error .nameTooLong
      else
        match fs.get? (base ++ [s]) with
        | none => if rest.isEmpty then .ok (base ++ [s]) else .error .missing
        | some (.file _) => if rest.isEmpty then .ok (base ++ [s]) else .error .notDirectory
        | some .directory => walk fs follow jump (base ++ [s]) rest
        | some (.link target) =>
          if rest.isEmpty && !follow then .ok (base ++ [s])
          else jump (origin base target).1 ((origin base target).2 ++ rest)
    | _ => walk fs follow jump base rest

/-- Follow pieces from a place behind at most so many links. -/
def resolve (fs : FileSystem) (follow : Bool) :
    Nat → Place → List String → Except FileError Place
  | 0 => walk fs follow fun _ _ => .error .linkLoop
  | n + 1 => walk fs follow (resolve fs follow n)

def linkLimit : Nat := 40

/-- The place that a path leads to. What is there may be missing, but not the directory it
is in. A link at the end stands for itself unless it is to be followed. -/
def locate (fs : FileSystem) (follow : Bool) (p : Path) : Except FileError Place :=
  let text := p.toText
  if text.toList.contains '\x00' then .error .badPath
  else if text = "" then .error .missing
  else if pathLimit ≤ text.utf8ByteSize then .error .nameTooLong
  else resolve fs follow linkLimit (origin fs.here p).1 (origin fs.here p).2

/-- The entry that a path leads to. -/
def entry? (fs : FileSystem) (p : Path) : Except FileError Entry :=
  (fs.locate true p).bind fun place =>
    match fs.get? place with
    | none => .error .missing
    | some e => .ok e

/-- The place of what a path leads to, which must be there. -/
def canonical? (fs : FileSystem) (p : Path) : Except FileError Place :=
  (fs.locate true p).bind fun place =>
    match fs.get? place with
    | none => .error .missing
    | some _ => .ok place

def exists? (fs : FileSystem) (p : Path) : Except FileError Bool :=
  match fs.entry? p with
  | .ok _ => .ok true
  | .error .missing => .ok false
  | .error e => .error e

def isFile (fs : FileSystem) (p : Path) : Bool :=
  match fs.entry? p with
  | .ok (.file _) => true
  | _ => false

def isDirectory (fs : FileSystem) (p : Path) : Bool :=
  match fs.entry? p with
  | .ok .directory => true
  | _ => false

def read (fs : FileSystem) (p : Path) : Except FileError Bytes :=
  (fs.entry? p).bind fun
    | .file content => .ok content
    | .directory => .error .isDirectory
    | .link _ => .error .linkLoop

end FileSystem

end CodeSearch
