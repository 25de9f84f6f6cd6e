import CodeSearch.Data.Value
import CodeSearch.Embedding.Metric
import CodeSearch.Text.Split

/-! # Settings of the embedding -/

namespace CodeSearch

inductive EmbeddingMode where
  /-- From a hash of the text, without a model. -/
  | stub
  /-- From a model behind an endpoint. -/
  | ollama
  deriving DecidableEq, Repr

namespace EmbeddingMode

def all : List EmbeddingMode := [stub, ollama]

def name : EmbeddingMode → String
  | stub => "stub"
  | ollama => "ollama"

def ofName? (s : String) : Option EmbeddingMode := all.find? fun m => m.name = s

/-- The mode that a user names, in any case and between any blanks. -/
def parse? (s : String) : Option EmbeddingMode := ofName? (Text.lower (Text.trim s))

end EmbeddingMode

structure EmbeddingSettings where
  mode : EmbeddingMode
  model : String
  baseUrl : String
  /-- The length of vectors; it goes by the model if it is not set. -/
  dimension : Option Nat
  timeout : Nat
  metric : Metric
  deriving DecidableEq

namespace EmbeddingSettings

def standard : EmbeddingSettings where
  mode := .ollama
  model := "all-minilm"
  baseUrl := "http://localhost:11434"
  dimension := none
  timeout := 30
  metric := .l2

instance : Inhabited EmbeddingSettings := ⟨standard⟩

/-- The length of the vectors of a model, whose tag after a colon does not matter. -/
def modelDimension (model : String) : Nat :=
  match (Text.splitAt ':' model).head? with
  | some "all-minilm" => 384
  | some "mxbai-embed-large" | some "snowflake-arctic-embed" | some "bge-m3" => 1024
  | _ => 768

def resolvedDimension (s : EmbeddingSettings) : Nat := s.dimension.getD (modelDimension s.model)

def modelId (s : EmbeddingSettings) : String :=
  match s.mode with
  | .stub => "stub"
  | .ollama => s.model

/-- Where vectors of a model are asked for. -/
def endpoint (s : EmbeddingSettings) : String :=
  String.ofList (s.baseUrl.toList.reverse.dropWhile (· = '/')).reverse ++ "/api/embed"

def fieldNames : List String :=
  ["mode", "model", "base_url", "dimension", "timeout_secs", "metric"]

def ofFields? (dialect : Dialect) : List (Option Value) → Option EmbeddingSettings
  | [mode, model, baseUrl, dimension, timeout, metric] => do
    some
      { mode := ← Value.orElse standard.mode (Value.choice? dialect EmbeddingMode.ofName?) mode
        model := ← Value.orElse standard.model Value.text? model
        baseUrl := ← Value.orElse standard.baseUrl Value.text? baseUrl
        dimension := ← Value.orElse none (Value.optional? Value.word?) dimension
        timeout := ← Value.orElse standard.timeout Value.word? timeout
        metric := ← Value.orElse standard.metric (Value.choice? dialect Metric.ofName?) metric }
  | _ => none

/-- The settings of a document; fields that it leaves out keep their standard values. -/
def ofValue? (dialect : Dialect) (v : Value) : Option EmbeddingSettings :=
  (Value.fields? dialect fieldNames v).bind (ofFields? dialect)

def toValue (s : EmbeddingSettings) : Value :=
  .record
    [("mode", .text s.mode.name), ("model", .text s.model), ("base_url", .text s.baseUrl),
      ("dimension", (s.dimension.map fun n => Value.integer n).getD .null),
      ("timeout_secs", .integer s.timeout), ("metric", .text s.metric.name)]

end EmbeddingSettings

end CodeSearch
