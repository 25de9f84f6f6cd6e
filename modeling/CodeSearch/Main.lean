import CodeSearch.Command.Run
import CodeSearch.Tree.Document

/-! # The program

Standard input lists the files that the program sees, one path a line. The tree of a source
is a document in the file of the same path with a further extension. Files that a command
makes or changes are written when it ends.
-/

namespace CodeSearch

namespace Program

def treePath (path : String) : String := path ++ ".tree"

structure Parsed where
  language : Language
  source : Bytes
  tree : Tree

/-- A parser that knows some sources. -/
def parser (known : List Parsed) : Parser := fun l source =>
  (known.find? fun p => p.language = l && p.source = source).map Parsed.tree

/-- Files with one more, in directories that are made for it. -/
def withFile (fs : FileSystem) (path : String) (content : Bytes) : FileSystem :=
  let p := Path.ofText path
  let ready :=
    match p.parent? with
    | some up => (fs.makeDirectories up).2
    | none => fs
  ((ready.write p content).toOption).getD ready

/-- The places from the root down to one. -/
def above (place : Place) : List Place := (List.range place.length).map fun n => place.take (n + 1)

/-- A system that holds a working directory and nothing in it. -/
def emptyAt (here : Place) : FileSystem :=
  (above here).foldl (fun fs place => fs.set place .directory) ⟨[], here⟩

def placeOf (path : String) : Place := (Text.splitAt '/' path).filter (· ≠ "")

/-- What differs from the entries of before, the entries nearer to the root first. -/
def changed (before after : FileSystem) : List (Place × Entry) :=
  (after.entries.filter fun entry => before.get? entry.1 ≠ some entry.2).mergeSort fun a b =>
    a.1.length ≤ b.1.length

/-- Models behind an endpoint cannot be asked from here. -/
def noRemote (s : EmbeddingSettings) : Embedder Unit where
  embed _ u := (.error (.embedding ("no connection to " ++ s.endpoint)), u)

def readBytes (path : String) : IO (Option Bytes) := do
  try
    return some (← IO.FS.readBinFile path).toList
  catch _ => return none

def treeOf? (content : Bytes) : Option Tree :=
  ((Utf8.decode? content).bind Json.parse?).bind Tree.ofValue?

/-- The source at a path with its tree, if it is known. -/
def readTree (path : String) (source : Bytes) : IO (Option Parsed) := do
  let content ← readBytes (treePath path)
  return do
    let tree ← content.bind treeOf?
    let language ← Language.ofPath? (Path.ofText path)
    some ⟨language, source, tree⟩

/-- Read the files at some paths and the trees of the sources among them. -/
def load (fs : FileSystem) : List String → IO (FileSystem × List Parsed)
  | [] => return (fs, [])
  | path :: paths => do
    match ← readBytes path with
    | none => load fs paths
    | some content =>
      let parsed ← readTree path content
      let (fs, rest) ← load (withFile fs path content) paths
      return (fs, parsed.toList ++ rest)

def save (entry : Place × Entry) : IO Unit := do
  let path := (Path.ofPlace entry.1).toText
  match entry.2 with
  | .file content => IO.FS.writeBinFile path (ByteArray.mk content.toArray)
  | .directory => IO.FS.createDirAll path
  | .link _ => return

/-- The variables of the environment that settings look at. -/
def environment : IO Environment := do
  let found ← Settings.Overrides.names.mapM fun name => return (name, ← IO.getEnv name)
  return fun name => (found.find? fun entry => entry.1 = name).bind (·.2)

end Program

end CodeSearch

open CodeSearch in
def main (args : List String) : IO UInt32 := do
  let here := Program.placeOf ((← IO.getEnv "PWD").getD "/")
  let listed := Text.lines (← (← IO.getStdin).readToEnd)
  let (before, known) ← Program.load (Program.emptyAt here) listed
  let host : Host := ⟨Program.parser known, 8, ← Program.environment, Program.noRemote⟩
  let started ← IO.monoMsNow
  let (outcome, after) ← pure (Invocation.outcome host args before)
  let report := outcome.report (UInt64.ofNat ((← IO.monoMsNow) - started))
  (Program.changed before after).forM Program.save
  (← IO.getStdout).putStr (Report.text report.out)
  (← IO.getStderr).putStr (Report.text report.err)
  return UInt32.ofNat report.exit
