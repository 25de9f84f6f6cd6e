import CodeSearch.Extraction.File
import CodeSearch.Indexing.Limits
import CodeSearch.Indexing.Write
import CodeSearch.Scan.Walk

/-! # Indexing runs

A run extracts the chunks of some sources, writes them and flushes the backend. What goes
wrong with one file is noted and does not end the run.
-/

namespace CodeSearch

inductive IndexError where
  | notReady
  | store (e : StoreError)
  | badPath (path : String)
  deriving DecidableEq, Repr

def IndexError.message : IndexError → String
  | notReady => "Vector store is not ready: initialize it before indexing"
  | store e => "Vector store error: " ++ e.message
  | badPath path => "Invalid path: " ++ path

structure Indexer where
  options : Options
  batchSize : Nat
  concurrency : Nat
  /-- The canonical path that files are named below. -/
  anchor : Path

namespace Indexer

/-- An indexer that writes at least one chunk at once and names files below `root`. -/
def create (fs : FileSystem) (o : Options) (batchSize concurrency : Nat) (root : Path) : Indexer :=
  ⟨o, max 1 batchSize, Concurrency.clamp concurrency, fs.canonicalOrSelf root⟩

end Indexer

/-- What a run changes: the states of the embedder and of the backend, and the files. -/
structure World (ε σ : Type) where
  embedder : ε
  backend : σ
  files : FileSystem

/-- What a run works with. -/
structure Workshop (ε σ : Type) where
  indexer : Indexer
  parse : Parser
  embedder : Embedder ε
  backend : Backend σ

namespace Workshop

variable {ε σ : Type}

abbrev Run (ε σ : Type) := World ε σ → Except IndexError Stats × World ε σ

/-- Refuse a backend that is not ready. -/
def ready (k : Workshop ε σ) (w : World ε σ) : Except IndexError Unit :=
  match k.backend.ready w.backend with
  | .ok _ => .ok ()
  | .error .notReady => .error .notReady
  | .error e => .error (.store e)

/-- Write the chunks of an extraction and note its warnings. -/
def write (k : Workshop ε σ) (name : String) (x : Extraction) (w : World ε σ) :
    Stats × World ε σ :=
  let noted := x.warnings.foldl (fun stats warning => stats.addWarning warning.message) Stats.empty
  let (stats, e, s) :=
    Indexing.writeChunks k.embedder k.backend k.indexer.batchSize name x.chunks
      (w.embedder, w.backend)
  (noted.merge stats, { w with embedder := e, backend := s })

/-- Write the chunks of a file. -/
def processFile (k : Workshop ε σ) (f : SourceFile) (w : World ε σ) : Stats × World ε σ :=
  k.write f.name (Extraction.ofFile k.parse k.indexer.options w.files f.path f.name) w

/-- Add the counts of one file to those of a run. -/
def countFile (total one : Stats) : Stats :=
  ({ total with files := total.files + 1 }).merge one

def finish (k : Workshop ε σ) (stats : Stats) (w : World ε σ) :
    Except IndexError Stats × World ε σ :=
  match k.backend.flush w.backend w.files with
  | (.ok _, s, fs) => (.ok stats, { w with backend := s, files := fs })
  | (.error e, s, fs) => (.error (.store e), { w with backend := s, files := fs })

def indexSource (k : Workshop ε σ) (name ext : String) (source : Bytes) : Run ε σ := fun w =>
  match k.ready w with
  | .error e => (.error e, w)
  | .ok _ =>
    let (stats, w) := k.write name (Extraction.ofSource k.parse k.indexer.options source name ext) w
    k.finish (countFile .empty stats) w

def indexFiles (k : Workshop ε σ) (files : List SourceFile) : Run ε σ := fun w =>
  match k.ready w with
  | .error e => (.error e, w)
  | .ok _ =>
    let (stats, w) := files.foldl
      (fun (total, w) f => let (one, w) := k.processFile f w; (countFile total one, w))
      (Stats.empty, w)
    k.finish stats w

def indexFile (k : Workshop ε σ) (f : SourceFile) : Run ε σ := k.indexFiles [f]

def sourcesIn (k : Workshop ε σ) (fs : FileSystem) (p : Path) : List SourceFile :=
  ((Scanner.ofRoot fs p).named fs k.indexer.anchor).scan fs

def sourcesAt (k : Workshop ε σ) (fs : FileSystem) (p : Path) :
    Except IndexError (List SourceFile) :=
  if fs.isDirectory p then .ok (k.sourcesIn fs p)
  else if fs.isFile p then .ok [fs.sourceFile k.indexer.anchor p]
  else .error (.badPath p.toText)

/-- The sources that paths stand for, each name once. -/
def collect (k : Workshop ε σ) (fs : FileSystem) (paths : List Path) :
    Except IndexError (List SourceFile) := do
  let found ← paths.mapM (k.sourcesAt fs)
  return SourceFile.distinct (SourceFile.sort found.flatten)

/-- Index files and the sources in directories. A path to neither ends the run before
anything is written. -/
def indexPaths (k : Workshop ε σ) (paths : List Path) : Run ε σ := fun w =>
  match k.ready w with
  | .error e => (.error e, w)
  | .ok _ =>
    match k.collect w.files paths with
    | .error e => (.error e, w)
    | .ok files => k.indexFiles files w

def indexDirectory (k : Workshop ε σ) (p : Path) : Run ε σ := fun w =>
  if !w.files.isDirectory p then (.error (.badPath p.toText), w)
  else
    match k.ready w with
    | .error e => (.error e, w)
    | .ok _ => k.indexFiles (k.sourcesIn w.files p) w

end Workshop

end CodeSearch
