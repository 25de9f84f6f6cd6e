import CodeSearch.Language
import CodeSearch.Scan.Rule
import CodeSearch.Scan.Source

/-! # Scanning a directory

A scan goes down from its root and finds the regular files of a known language. It does not
go into hidden or ignored directories, and it follows no link below the root.
-/

namespace CodeSearch

structure Scanner where
  root : Path
  /-- The canonical path that names are given below. -/
  anchor : Path
  /-- Longer files are left out. -/
  maxBytes : Nat

namespace Scanner

def standardLimit : Nat := 1048576

/-- A scanner that names files below its root. -/
def ofRoot (fs : FileSystem) (root : Path) : Scanner :=
  ⟨root, fs.canonicalOrSelf root, standardLimit⟩

/-- Name files below another anchor. -/
def named (fs : FileSystem) (anchor : Path) (s : Scanner) : Scanner :=
  { s with anchor := fs.canonicalOrSelf anchor }

/-- Names that are left out in any case of their letters: of tools, of build trees and of
code from elsewhere. -/
def ignoredNames : List String :=
  [".git", ".hg", ".svn", ".idea", ".vscode", ".cache", ".codechat", "build",
    "cmake-build-debug", "cmake-build-release", "out", "bin", "obj", "target", "cmakefiles",
    "vendor", "third_party", "third-party", "external", "node_modules"]

def isIgnoredName (name : String) : Bool :=
  ignoredNames.contains (String.ofList (name.toList.map Text.lowerChar))

def isHidden (name : String) : Bool := name.toList.head? = some '.'

/-- The files of a directory that hold rules, the ones that count first in front. -/
def ruleFiles : List Place := [[".ignore"], [".gitignore"], [".git", "info", "exclude"]]

/-- The rules in a file below a directory. -/
def rulesAt (fs : FileSystem) (directory file : Place) : List Rule :=
  match fs.read (Path.ofPlace (directory ++ file)) with
  | .ok bytes => Rule.ofBytes bytes
  | .error _ => []

/-- The ways to cut a place into a directory and names below it, the longest first. -/
def cuts (place : Place) : List (Place × List String) :=
  (List.range place.length).reverse.map fun i => (place.take i, place.drop i)

/-- What the rule files of one sort say about a place: the nearest one that says something. -/
def verdictOf (fs : FileSystem) (file place : Place) (isDirectory : Bool) : Option Bool :=
  (cuts place).findSome? fun (directory, names) =>
    Rule.verdict? (rulesAt fs directory file) (Utf8.encode ("/".intercalate names)) isDirectory

/-- Whether rules leave a place out, if they say anything about it. -/
def verdict? (fs : FileSystem) (place : Place) (isDirectory : Bool) : Option Bool :=
  ruleFiles.findSome? fun file => verdictOf fs file place isDirectory

/-- Whether what a path adds to the root has an ignored name. -/
def isIgnoredScope (root p : Path) : Bool :=
  match Path.strip? root p with
  | none => false
  | some relative => relative.steps.any fun
    | .name s => isIgnoredName s
    | _ => false

/-- Whether a place is passed over, with the path that a walk from the root comes to it on. Rules
may bring back what is hidden, but not what has an ignored name. -/
def skips (fs : FileSystem) (root : Path) (place : Place) (p : Path) (name : String)
    (isDirectory : Bool) : Bool :=
  isIgnoredScope root p || (verdict? fs place isDirectory).getD (isHidden name)

/-- The files of a directory that are not passed over, by the paths that lead to them. -/
def walk (fs : FileSystem) (root : Path) : Nat → Place → Path → List (Path × Bytes)
  | 0, _, _ => []
  | fuel + 1, place, p =>
    (fs.children place).flatMap fun (name, e) =>
      match e with
      | .file content =>
        if skips fs root (place ++ [name]) (p.join name) name false then []
        else [(p.join name, content)]
      | .directory =>
        if skips fs root (place ++ [name]) (p.join name) name true then []
        else walk fs root fuel (place ++ [name]) (p.join name)
      | .link _ => []

/-- Whether the root stands for the standard input, which no directory is. -/
def readsInput (s : Scanner) : Bool := s.root.steps = [.name "-"]

/-- The paths that a scan comes to. Directories are no deeper than there are entries. -/
def visited (fs : FileSystem) (s : Scanner) : List (Path × Bytes) :=
  if s.readsInput then []
  else
    match fs.canonical? s.root with
    | .error _ => []
    | .ok place =>
      match fs.get? place with
      | some (.file content) => [(s.root, content)]
      | some .directory => walk fs s.root (fs.entries.length + 1) place s.root
      | _ => []

/-- The sources under the root by their names. -/
def scan (fs : FileSystem) (s : Scanner) : List SourceFile :=
  SourceFile.sort <|
    ((visited fs s).filter fun (p, content) =>
      (Language.ofPath? p).isSome && content.length ≤ s.maxBytes).map fun (p, _) =>
        fs.sourceFile s.anchor p

end Scanner

end CodeSearch
