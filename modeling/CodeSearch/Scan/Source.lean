import CodeSearch.Files.Resolve

/-! # Names of sources

A file is named by its canonical path below an anchor, so every path to a file gives it one
name. A file elsewhere keeps its canonical path.
-/

namespace CodeSearch

/-- A file to index, and the name that its chunks go by. -/
structure SourceFile where
  path : Path
  name : String
  deriving DecidableEq

/-- The text of a path with slashes for backslashes. -/
def Path.slashed (p : Path) : String :=
  String.ofList (p.toText.toList.map fun c => if c = '\\' then '/' else c)

namespace FileSystem

/-- The canonical form of a path, or the path itself if it leads nowhere. -/
def canonicalOrSelf (fs : FileSystem) (p : Path) : Path :=
  match fs.canonical? p with
  | .ok place => Path.ofPlace place
  | .error _ => p

/-- The name of a path below an anchor in canonical form, with slashes for backslashes. -/
def sourceName (fs : FileSystem) (anchor p : Path) : String :=
  let canonical := fs.canonicalOrSelf p
  ((Path.strip? anchor canonical).getD canonical).slashed

def sourceFile (fs : FileSystem) (anchor p : Path) : SourceFile := ⟨p, fs.sourceName anchor p⟩

end FileSystem

namespace SourceFile

/-- Sort files by name. Files of one name keep their order. -/
def sort (files : List SourceFile) : List SourceFile := files.mergeSort fun a b => a.name ≤ b.name

/-- Leave out files named like the one before. -/
def distinct : List SourceFile → List SourceFile
  | [] => []
  | f :: fs =>
    match distinct fs with
    | [] => [f]
    | g :: gs => if f.name = g.name then f :: gs else f :: g :: gs

end SourceFile

end CodeSearch
