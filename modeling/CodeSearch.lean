import CodeSearch.Chunk.Basic
import CodeSearch.Chunk.Document
import CodeSearch.Chunk.Kind
import CodeSearch.Command.Answer
import CodeSearch.Command.Arguments
import CodeSearch.Command.Invocation
import CodeSearch.Command.Run
import CodeSearch.Data.Json.Printer
import CodeSearch.Data.Json.Reader
import CodeSearch.Data.Numeral
import CodeSearch.Data.Toml.Quoted
import CodeSearch.Data.Toml.Reader
import CodeSearch.Data.Toml.Scalar
import CodeSearch.Data.Toml.Tables
import CodeSearch.Data.Value
import CodeSearch.Digest.Sha256
import CodeSearch.Embedding.Metric
import CodeSearch.Embedding.Settings
import CodeSearch.Embedding.Stub
import CodeSearch.Extraction.Candidate
import CodeSearch.Extraction.Declarator
import CodeSearch.Extraction.File
import CodeSearch.Extraction.Options
import CodeSearch.Extraction.Pass
import CodeSearch.Extraction.Query
import CodeSearch.Extraction.Result
import CodeSearch.Extraction.Scope
import CodeSearch.Files.Change
import CodeSearch.Files.Path
import CodeSearch.Files.Resolve
import CodeSearch.Files.System
import CodeSearch.Groups
import CodeSearch.Indexing.ChunkId
import CodeSearch.Indexing.Limits
import CodeSearch.Indexing.Run
import CodeSearch.Indexing.Service
import CodeSearch.Indexing.Stats
import CodeSearch.Indexing.Write
import CodeSearch.Language
import CodeSearch.Main
import CodeSearch.Name.Qualified
import CodeSearch.Name.TestName
import CodeSearch.Number.Binary
import CodeSearch.Number.Decimal
import CodeSearch.Number.Word
import CodeSearch.Proofs.Data.Documents
import CodeSearch.Proofs.Data.Numerals
import CodeSearch.Proofs.Data.Reals
import CodeSearch.Proofs.Data.Scaling
import CodeSearch.Proofs.Data.Strings
import CodeSearch.Proofs.Embedding.Distance
import CodeSearch.Proofs.Embedding.Finite
import CodeSearch.Proofs.Extraction.Arrays
import CodeSearch.Proofs.Extraction.Attribution
import CodeSearch.Proofs.Extraction.Declarator
import CodeSearch.Proofs.Extraction.Lines
import CodeSearch.Proofs.Extraction.Members
import CodeSearch.Proofs.Extraction.Order
import CodeSearch.Proofs.Extraction.Overlap
import CodeSearch.Proofs.Extraction.Pass
import CodeSearch.Proofs.Extraction.Tally
import CodeSearch.Proofs.Files.Below
import CodeSearch.Proofs.Files.Canonical
import CodeSearch.Proofs.Files.Circle
import CodeSearch.Proofs.Files.Detour
import CodeSearch.Proofs.Files.Directories
import CodeSearch.Proofs.Files.Enter
import CodeSearch.Proofs.Files.Names
import CodeSearch.Proofs.Files.Parts
import CodeSearch.Proofs.Files.Siblings
import CodeSearch.Proofs.Files.Site
import CodeSearch.Proofs.Files.Sound
import CodeSearch.Proofs.Indexing.Accounting
import CodeSearch.Proofs.Indexing.Ambiguity
import CodeSearch.Proofs.Indexing.Arguments
import CodeSearch.Proofs.Indexing.Collect
import CodeSearch.Proofs.Indexing.Coverage
import CodeSearch.Proofs.Indexing.Identity
import CodeSearch.Proofs.Indexing.Naming
import CodeSearch.Proofs.Indexing.Order
import CodeSearch.Proofs.Indexing.Plant
import CodeSearch.Proofs.Indexing.Schedule
import CodeSearch.Proofs.Indexing.Spelling
import CodeSearch.Proofs.Number.Rounding
import CodeSearch.Proofs.Number.Shortest
import CodeSearch.Proofs.Retrieval.Lossless
import CodeSearch.Proofs.Retrieval.Monotone
import CodeSearch.Proofs.Retrieval.Nearest
import CodeSearch.Proofs.Retrieval.Ranking
import CodeSearch.Proofs.Retrieval.Verbatim
import CodeSearch.Proofs.Scan.Exact
import CodeSearch.Proofs.Settings.Environment
import CodeSearch.Proofs.Store.Adoption
import CodeSearch.Proofs.Store.Agreement
import CodeSearch.Proofs.Store.Components
import CodeSearch.Proofs.Store.Contents
import CodeSearch.Proofs.Store.Disk
import CodeSearch.Proofs.Store.Document
import CodeSearch.Proofs.Store.Durability
import CodeSearch.Proofs.Store.Failures
import CodeSearch.Proofs.Store.Found
import CodeSearch.Proofs.Store.Ledger
import CodeSearch.Proofs.Store.Overlay
import CodeSearch.Proofs.Store.Reopening
import CodeSearch.Proofs.Store.Replace
import CodeSearch.Proofs.Store.Requests
import CodeSearch.Proofs.Store.Sole
import CodeSearch.Proofs.Store.Steps
import CodeSearch.Proofs.Text.Utf8
import CodeSearch.Proofs.Tree.Address
import CodeSearch.Proofs.Tree.Chain
import CodeSearch.Proofs.Tree.Matching
import CodeSearch.Proofs.Tree.Nesting
import CodeSearch.Proofs.Tree.Walk
import CodeSearch.Retrieval.Ranking
import CodeSearch.Retrieval.Retrieve
import CodeSearch.Scan.Glob
import CodeSearch.Scan.Rule
import CodeSearch.Scan.Source
import CodeSearch.Scan.Walk
import CodeSearch.Settings
import CodeSearch.Span
import CodeSearch.Store.Failure
import CodeSearch.Store.Handle
import CodeSearch.Store.Index
import CodeSearch.Store.Record
import CodeSearch.Store.Snapshot
import CodeSearch.Table
import CodeSearch.Text.Blank
import CodeSearch.Text.Hex
import CodeSearch.Text.Letter
import CodeSearch.Text.Split
import CodeSearch.Text.Utf8
import CodeSearch.Text.Word
import CodeSearch.Tree.Basic
import CodeSearch.Tree.Cursor
import CodeSearch.Tree.Document
import CodeSearch.Tree.Outline
import CodeSearch.Tree.Pattern
import CodeSearch.Proofs.Name.TestName
import CodeSearch.Proofs.Text.Blank
import CodeSearch.Proofs.Name.Qualified
import CodeSearch.Proofs.Extraction.Slots
