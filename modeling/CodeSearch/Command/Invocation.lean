import CodeSearch.Chunk.Kind
import CodeSearch.Command.Arguments
import CodeSearch.Embedding.Settings
import CodeSearch.Files.Path
import CodeSearch.Number.Decimal

/-! # Invocations

The arguments name a command. Switches that every command has may stand before it and after
it, and those after it count.
-/

namespace CodeSearch

/-- What every command may be told. -/
structure Globals where
  config : Option Path
  store : Option Path
  mode : Option EmbeddingMode

namespace Globals

def none : Globals := ⟨.none, .none, .none⟩

/-- The inner ones where they are set, else the outer ones. -/
def or (inner outer : Globals) : Globals :=
  ⟨inner.config.or outer.config, inner.store.or outer.store, inner.mode.or outer.mode⟩

end Globals

inductive Verb where
  | index
  | query
  | chunks
  | stats
  | clear
  deriving DecidableEq, Repr

namespace Verb

def all : List Verb := [index, query, chunks, stats, clear]

def name : Verb → String
  | index => "index"
  | query => "query"
  | chunks => "chunks"
  | stats => "stats"
  | clear => "clear"

def ofName? (s : String) : Option Verb := all.find? fun v => v.name = s

end Verb

inductive Command where
  | index (paths : List Path) (batchSize : Option Nat)
  /-- Find the chunks nearest to a text. -/
  | query (text : String) (limit : Option Nat) (threshold : Option Single) (kind : Option Kind)
  /-- Show the chunks of one file. -/
  | chunks (file : Path) (strict : Bool)
  | stats
  | clear

structure Invocation where
  globals : Globals
  command : Command
  json : Bool

/-- All that the arguments of any command can set. -/
structure Given where
  globals : Globals
  operands : List String
  batchSize : Option Nat
  limit : Option Nat
  threshold : Option Single
  kind : Option Kind
  strict : Bool
  json : Bool

namespace Given

def nothing : Given := ⟨.none, [], none, none, none, none, false, false⟩

/-- The command of a verb, unless an operand is missing. -/
def command? (g : Given) : Verb → Option Command
  | .index => some (.index (g.operands.map Path.ofText) g.batchSize)
  | .query => g.operands.head?.map fun s => .query s g.limit g.threshold g.kind
  | .chunks => g.operands.head?.map fun s => .chunks (Path.ofText s) g.strict
  | .stats => some .stats
  | .clear => some .clear

/-- Whether a verb takes another operand. Paths are not empty. -/
def accepts (g : Given) (s : String) : Verb → Bool
  | .index => s ≠ ""
  | .query => g.operands.isEmpty
  | .chunks => g.operands.isEmpty && s ≠ ""
  | .stats | .clear => false

end Given

namespace Invocation

def path? (s : String) : Option Path := if s = "" then none else some (Path.ofText s)

/-- At least one. -/
def batchSize? (s : String) : Option Nat := (Decimal.natural? wordSize s).filter (1 ≤ ·)

def configSwitch : Switch Given :=
  ⟨"config", none, .take fun s g =>
    (path? s).map fun p => { g with globals.config := some p }⟩

def storeSwitch : Switch Given :=
  ⟨"store", none, .take fun s g =>
    (path? s).map fun p => { g with globals.store := some p }⟩

def modeSwitch : Switch Given :=
  ⟨"embed-mode", none, .take fun s g =>
    (EmbeddingMode.ofName? s).map fun m => { g with globals.mode := some m }⟩

def helpSwitch : Switch Given := ⟨"help", some 'h', .halt .help⟩

def versionSwitch : Switch Given := ⟨"version", some 'V', .halt .version⟩

/-- Switches for a log, which nothing is written to. -/
def logSwitches : List (Switch Given) :=
  [⟨"verbose", some 'v', .mark id⟩, ⟨"quiet", some 'q', .mark id⟩]

def commonSwitches : List (Switch Given) :=
  [configSwitch, storeSwitch, modeSwitch, helpSwitch] ++ logSwitches

def jsonSwitch : Switch Given := ⟨"json", none, .mark fun g => { g with json := true }⟩

def strictSwitch : Switch Given := ⟨"strict", none, .mark fun g => { g with strict := true }⟩

def batchSwitch : Switch Given :=
  ⟨"batch-size", none, .take fun s g =>
    (batchSize? s).map fun n => { g with batchSize := some n }⟩

def limitSwitch : Switch Given :=
  ⟨"top-k", some 'k', .take fun s g =>
    (Decimal.natural? wordSize s).map fun n => { g with limit := some n }⟩

def thresholdSwitch : Switch Given :=
  ⟨"threshold", none, .take fun s g =>
    (Decimal.read? s).map fun x => { g with threshold := some x }⟩

def kindSwitch : Switch Given :=
  ⟨"kind", none, .take fun s g => (Kind.parse? s).map fun k => { g with kind := some k }⟩

def ownSwitches : Verb → List (Switch Given)
  | .index => [batchSwitch, jsonSwitch]
  | .query => [limitSwitch, thresholdSwitch, kindSwitch, jsonSwitch]
  | .chunks => [strictSwitch, jsonSwitch]
  | .stats => [jsonSwitch]
  | .clear => []

/-- What follows a verb. -/
def verbGrammar (v : Verb) : Grammar Given Empty where
  switches := ownSwitches v ++ commonSwitches
  operand s g := if g.accepts s v then some { g with operands := g.operands ++ [s] } else none
  branch _ := none

inductive Branch where
  | verb (v : Verb)
  | help

def branch? (s : String) : Option Branch :=
  if s = "help" then some .help else (Verb.ofName? s).map .verb

/-- What comes before a verb. -/
def grammar : Grammar Given Branch where
  switches := versionSwitch :: commonSwitches
  operand _ _ := none
  branch := branch?

/-- What comes of the arguments after a request for help. -/
def helpOn : List String → Halt
  | [] => .help
  | [s] => if (branch? s).isSome then .help else .misuse
  | _ => .misuse

/-- Read what follows a verb. -/
def ofVerb (v : Verb) (args : List String) : Except Halt (Given × Command) := do
  let (r, _) ← (verbGrammar v).read args (.start .nothing)
  let r ← r.settle
  match r.result.command? v with
  | some c => return (r.result, c)
  | none => throw .misuse

/-- Read the arguments of the program. A switch right before a verb is looked at last. -/
def ofArguments (args : List String) : Except Halt Invocation := do
  match ← grammar.read args (.start .nothing) with
  | (_, none) => throw .misuse
  | (_, some (.help, rest)) => throw (helpOn rest)
  | (outer, some (.verb v, rest)) =>
    let (inner, command) ← ofVerb v rest
    let outer ← outer.settle
    return ⟨inner.globals.or outer.result.globals, command, inner.json⟩

end Invocation

end CodeSearch
