import CodeSearch.Command.Answer
import CodeSearch.Command.Invocation
import CodeSearch.Indexing.Run
import CodeSearch.Retrieval.Retrieve
import CodeSearch.Settings

/-! # Running commands

A command works with the settings, on files, in an environment. What it writes before it
fails stays.
-/

namespace CodeSearch

/-- What the program finds around it. -/
structure Host where
  parse : Parser
  processors : Nat
  environment : Environment
  /-- The embedder of models behind an endpoint. -/
  remote : EmbeddingSettings → Embedder Unit

/-- The embedder that settings ask for. -/
def Host.embedder (h : Host) (s : EmbeddingSettings) : Embedder Unit :=
  match s.mode with
  | .stub => stubEmbedder s.resolvedDimension
  | .ollama => h.remote s

/-- Why a command fails. -/
inductive CommandError where
  | settings (e : Settings.Failure)
  | opening (path : Path) (e : StoreError)
  | store (e : StoreError)
  | indexing (e : IndexError)
  | retrieval (e : RetrievalError)
  | extraction (w : Warning)
  deriving DecidableEq

/-- A failure of a store and what is behind it. -/
def StoreError.chain (e : StoreError) : List String :=
  e.message ::
    match e with
    | .files cause => [cause]
    | .document => [StoreError.documentCause]
    | _ => []

def IndexError.chain (e : IndexError) : List String :=
  e.message ::
    match e with
    | .store e => e.chain
    | _ => []

def RetrievalError.chain (e : RetrievalError) : List String :=
  e.message ::
    match e with
    | .store e => e.chain
    | _ => []

/-- What went wrong, and then the causes behind it. -/
def CommandError.chain : CommandError → List String
  | settings e => e.messages
  | opening path e => ("Failed to open store " ++ path.toText) :: e.chain
  | store e => e.chain
  | indexing e => "Failed to index" :: e.chain
  | retrieval e => e.chain
  | extraction w => [w.message]

/-- What comes of a run of the program. -/
inductive Outcome where
  | halt (h : Halt)
  | failure (e : CommandError)
  | answer (a : Answer) (json : Bool)

/-- A step that may change files and may fail. -/
abbrev Action (α : Type) := ExceptT CommandError (StateM FileSystem) α

namespace Action

variable {α : Type}

/-- The result of something that changes no files. -/
def check (x : Except CommandError α) : Action α := fun fs => (x, fs)

/-- A step on a store, whose failures are told in a way of their own. -/
def onStore (why : StoreError → CommandError) (step : StoreAction α) : Action α := fun fs =>
  match step fs with
  | (.ok a, after) => (.ok a, after)
  | (.error e, after) => (.error (why e), after)

end Action

namespace Settings

def openStore (s : Settings) : Action Store :=
  .onStore (.opening s.storePath)
    (Store.closed (some s.storePath) s.embedding.resolvedDimension s.embedding.metric).init

/-- The directory that is indexed if no path is given. -/
def standardPaths : List Path → List Path
  | [] => [Path.ofText "."]
  | paths => paths

def indexPaths (h : Host) (s : Settings) (paths : List Path) (batchSize : Option Nat) :
    Action Answer := do
  let store ← s.openStore
  fun fs =>
    let indexer := Indexer.create fs s.extraction (batchSize.getD s.indexing.batchSize)
      (s.indexing.resolvedConcurrency h.processors) (s.projectRoot.getD (Path.ofText "."))
    let workshop : Workshop Unit Store := ⟨indexer, h.parse, h.embedder s.embedding, storeBackend⟩
    match workshop.indexPaths (standardPaths paths) ⟨(), store, fs⟩ with
    | (.ok stats, w) => (.ok (.indexed stats), w.files)
    | (.error e, w) => (.error (.indexing e), w.files)

def findChunks (h : Host) (s : Settings) (text : String) (limit : Option Nat)
    (threshold : Option Single) (kind : Option Kind) : Action Answer := do
  let store ← s.openStore
  let request : Request :=
    { query := text, limit := limit.getD s.retrieval.limit
      threshold := threshold.getD s.retrieval.threshold, kind }
  match (retrieve (h.embedder s.embedding) storeBackend request () store).1 with
  | .ok chunks => return .found request.threshold chunks
  | .error e => throw (.retrieval e)

/-- The chunks of a file, named by its path. A warning is a failure here. -/
def showChunks (h : Host) (s : Settings) (file : Path) (strict : Bool) : Action Answer := fun fs =>
  let options := if strict then { s.extraction with nestMembers := false } else s.extraction
  let found := Extraction.ofFile h.parse options fs file file.slashed
  match found.warnings with
  | [] => (.ok (.extracted found.chunks), fs)
  | w :: _ => (.error (.extraction w), fs)

def showStore (s : Settings) : Action Answer := do
  let store ← s.openStore
  let entries ← Action.check (store.count.mapError .store)
  return .status
    { path := s.storePath, entries, dimension := store.dimension, metric := store.metric
      mode := s.embedding.mode, model := s.embedding.model }

def clearStore (s : Settings) : Action Answer := do
  let store ← s.openStore
  let removed ← Action.check (store.count.mapError .store)
  let _ ← Action.onStore .store store.clear
  return .cleared removed s.storePath

end Settings

def Command.run (h : Host) (s : Settings) : Command → Action Answer
  | .index paths batchSize => s.indexPaths h paths batchSize
  | .query text limit threshold kind => s.findChunks h text limit threshold kind
  | .chunks file strict => s.showChunks h file strict
  | .stats => s.showStore
  | .clear => s.clearStore

/-- Settings with what an invocation sets. -/
def Globals.applyTo (g : Globals) (s : Settings) : Settings :=
  { s with
    storePath := g.store.getD s.storePath
    embedding.mode := g.mode.getD s.embedding.mode }

namespace Invocation

/-- Run a command with the settings that hold for it. -/
def run (h : Host) (i : Invocation) : Action Answer := fun fs =>
  match Settings.load fs h.environment i.globals.config with
  | .error e => (.error (.settings e), fs)
  | .ok s => i.command.run h (i.globals.applyTo s) fs

/-- How the program is called. -/
def usage : List String :=
  ["Usage: codechat [OPTIONS] COMMAND", "",
    "Commands: " ++ ", ".intercalate (Verb.all.map Verb.name) ++ ", help"]

def version : List String := ["codechat 0.1.0"]

/-- The report on arguments that name no command to run. -/
def reportHalt : Halt → Report
  | .help => ⟨0, usage, []⟩
  | .version => ⟨0, version, []⟩
  | .misuse => ⟨2, [], usage⟩

/-- Run the program on arguments. -/
def outcome (h : Host) (args : List String) (fs : FileSystem) : Outcome × FileSystem :=
  match ofArguments args with
  | .error halt => (.halt halt, fs)
  | .ok i =>
    match i.run h fs with
    | (.ok a, after) => (.answer a i.json, after)
    | (.error e, after) => (.failure e, after)

end Invocation

/-- What the program writes after a run that took some time. -/
def Outcome.report (milliseconds : UInt64) : Outcome → Report
  | halt h => Invocation.reportHalt h
  | failure e => .ofFailure e.chain
  | answer a json => .ofAnswer json (a.timed milliseconds)

end CodeSearch
