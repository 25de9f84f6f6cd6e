import CodeSearch.Data.Toml.Reader
import CodeSearch.Embedding.Settings
import CodeSearch.Extraction.Options
import CodeSearch.Files.Resolve
import CodeSearch.Indexing.Limits

/-! # Settings of the program

Settings come from a file in which every part may be left out. Variables of the environment
then set some of them, each variable its own. Blank values set nothing.
-/

namespace CodeSearch

structure IndexingSettings where
  batchSize : Nat
  /-- How many files to index at once; it goes by the host if it is not set. -/
  concurrency : Option Nat
  deriving DecidableEq

structure RetrievalSettings where
  limit : Nat
  threshold : Single
  deriving DecidableEq

structure Settings where
  storePath : Path
  /-- What files are named below; the working directory if it is not set. -/
  projectRoot : Option Path
  embedding : EmbeddingSettings
  indexing : IndexingSettings
  retrieval : RetrievalSettings
  extraction : Options
  deriving DecidableEq

namespace IndexingSettings

def standard : IndexingSettings := ⟨standardBatchSize, none⟩

instance : Inhabited IndexingSettings := ⟨standard⟩

/-- How many files to index at once on a host with so many processors. -/
def resolvedConcurrency (s : IndexingSettings) (processors : Nat) : Nat :=
  match s.concurrency with
  | some n => Concurrency.clamp n
  | none => Concurrency.ofProcessors processors

def ofValue? (dialect : Dialect) (v : Value) : Option IndexingSettings :=
  match Value.fields? dialect ["batch_size", "concurrency"] v with
  | some [batchSize, concurrency] => do
    some
      { batchSize := ← Value.orElse standard.batchSize Value.word? batchSize
        concurrency := ← Value.orElse none (Value.optional? Value.word?) concurrency }
  | _ => none

end IndexingSettings

namespace RetrievalSettings

/-- Five records nearer than 1.3. -/
def standard : RetrievalSettings := ⟨5, Decimal.toBinary ⟨false, 13, -1⟩⟩

instance : Inhabited RetrievalSettings := ⟨standard⟩

def ofValue? (dialect : Dialect) (v : Value) : Option RetrievalSettings :=
  match Value.fields? dialect ["top_k", "similarity_threshold"] v with
  | some [limit, threshold] => do
    some
      { limit := ← Value.orElse standard.limit Value.word? limit
        threshold := ← Value.orElse standard.threshold Value.single? threshold }
  | _ => none

end RetrievalSettings

abbrev Environment := String → Option String

namespace Settings

def standard : Settings where
  storePath := Path.ofText ".codechat/store.json"
  projectRoot := none
  embedding := .standard
  indexing := .standard
  retrieval := .standard
  extraction := .standard

instance : Inhabited Settings := ⟨standard⟩

def fieldNames : List String :=
  ["store_path", "project_root", "embedding", "indexing", "retrieval", "extraction"]

def path? (v : Value) : Option Path := v.text?.map Path.ofText

def ofFields? (dialect : Dialect) : List (Option Value) → Option Settings
  | [storePath, projectRoot, embedding, indexing, retrieval, extraction] => do
    some
      { storePath := ← Value.orElse standard.storePath path? storePath
        projectRoot := ← Value.orElse none (Value.optional? path?) projectRoot
        embedding := ← Value.orElse .standard (EmbeddingSettings.ofValue? dialect) embedding
        indexing := ← Value.orElse .standard (IndexingSettings.ofValue? dialect) indexing
        retrieval := ← Value.orElse .standard (RetrievalSettings.ofValue? dialect) retrieval
        extraction := ← Value.orElse .standard (Options.ofValue? dialect) extraction }
  | _ => none

/-- The settings of a document; fields that it leaves out keep their standard values. -/
def ofValue? (dialect : Dialect) (v : Value) : Option Settings :=
  (Value.fields? dialect fieldNames v).bind (ofFields? dialect)

def parse? (text : String) : Option Settings := (Toml.parse? text).bind (ofValue? Toml.dialect)

/-- The variables that set something. -/
structure Overrides where
  storePath : Option String
  projectRoot : Option String
  mode : Option String
  model : Option String
  url : Option String
  concurrency : Option String

namespace Overrides

def names : List String :=
  ["CODECHAT_STORE_PATH", "CODECHAT_PROJECT_ROOT", "CODECHAT_EMBEDDING_MODE",
    "CODECHAT_EMBEDDING_MODEL", "CODECHAT_OLLAMA_URL", "CODECHAT_INDEX_CONCURRENCY"]

/-- The value of a variable unless it is blank. -/
def look (env : Environment) (name : String) : Option String :=
  (env name).filter fun s => !Text.isBlankText s

def ofEnvironment (env : Environment) : Overrides where
  storePath := look env "CODECHAT_STORE_PATH"
  projectRoot := look env "CODECHAT_PROJECT_ROOT"
  mode := look env "CODECHAT_EMBEDDING_MODE"
  model := look env "CODECHAT_EMBEDDING_MODEL"
  url := look env "CODECHAT_OLLAMA_URL"
  concurrency := look env "CODECHAT_INDEX_CONCURRENCY"

end Overrides

/-- Set what variables set. What cannot be read sets nothing. -/
def override (o : Overrides) (s : Settings) : Settings where
  storePath := (o.storePath.map Path.ofText).getD s.storePath
  projectRoot := (o.projectRoot.map Path.ofText).or s.projectRoot
  embedding :=
    { s.embedding with
      mode := (o.mode.bind EmbeddingMode.parse?).getD s.embedding.mode
      model := o.model.getD s.embedding.model
      baseUrl := o.url.getD s.embedding.baseUrl }
  indexing :=
    { s.indexing with
      concurrency :=
        ((o.concurrency.bind Concurrency.read?).map Concurrency.clamp).or s.indexing.concurrency }
  retrieval := s.retrieval
  extraction := s.extraction

def applyEnvironment (env : Environment) (s : Settings) : Settings :=
  s.override (.ofEnvironment env)

/-- What is wrong with the settings, if anything is. -/
def fault? (s : Settings) : Option String :=
  if s.indexing.batchSize = 0 then some "indexing.batch_size must be > 0"
  else if s.retrieval.threshold.isNaN then some "retrieval.similarity_threshold must be a number"
  else if s.embedding.resolvedDimension = 0 then some "embedding.dimension must be > 0"
  else s.extraction.fault?.map ("extraction: " ++ ·)

/-- Why there are no settings. -/
inductive Failure where
  | unreadable (file : String) (cause : String)
  | invalid (file : String)
  | faulty (fault : String)
  deriving DecidableEq, Repr

/-- What went wrong, and then its cause if there is more to say. -/
def Failure.messages : Failure → List String
  | unreadable file cause => ["Failed to read config " ++ file, cause]
  | invalid file => ["Invalid config " ++ file, "TOML parse error"]
  | faulty fault => [fault]

def ofFile (fs : FileSystem) (p : Path) : Except Failure Settings :=
  match fs.read p with
  | .error e => .error (.unreadable p.toText e.message)
  | .ok bytes =>
    match Utf8.decode? bytes with
    | none => .error (.unreadable p.toText "stream did not contain valid UTF-8")
    | some text =>
      match parse? text with
      | none => .error (.invalid p.toText)
      | some s => .ok s

/-- The file that is read if it is there and no other is asked for. -/
def standardFile : Path := Path.ofText "codechat.toml"

/-- The settings of the file that is asked for or of the standard one, and of the variables. -/
def load (fs : FileSystem) (env : Environment) (asked : Option Path) : Except Failure Settings := do
  let given ← match asked with
    | some p => ofFile fs p
    | none => if fs.isFile standardFile then ofFile fs standardFile else .ok .standard
  let s := given.applyEnvironment env
  match s.fault? with
  | some fault => .error (.faulty fault)
  | none => .ok s

end Settings

end CodeSearch
