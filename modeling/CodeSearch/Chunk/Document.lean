import CodeSearch.Chunk.Basic
import CodeSearch.Data.Value

/-! # Chunks as documents

Names and the distance are written only if they are set, and may be missing or null.
-/

namespace CodeSearch

namespace Names

def fieldNames : List String := ["function_name", "class_name", "struct_name", "array_name"]

def toFields (n : Names) : List (String × Value) :=
  Value.ifSet "function_name" (n.functionName.map .text) ++
    Value.ifSet "class_name" (n.className.map .text) ++
    Value.ifSet "struct_name" (n.structName.map .text) ++
    Value.ifSet "array_name" (n.arrayName.map .text)

/-- A name that may be missing. -/
def read (v : Option Value) : Option (Option String) :=
  Value.orElse none (Value.optional? Value.text?) v

end Names

namespace Metadata

def fieldNames : List String := ["source", "start_line", "end_line", "kind"] ++ Names.fieldNames

def toFields (m : Metadata) : List (String × Value) :=
  [("source", .text m.source), ("start_line", .integer m.startLine),
    ("end_line", .integer m.endLine), ("kind", .text m.kind.name)] ++ m.names.toFields

def toValue (m : Metadata) : Value := .record m.toFields

def ofFields? (dialect : Dialect) : List (Option Value) → Option Metadata
  | [source, startLine, endLine, kind, function, owner, struct, array] => do
    some
      { source := ← Value.required Value.text? source
        startLine := ← Value.required Value.word? startLine
        endLine := ← Value.required Value.word? endLine
        kind := ← Value.required (Value.choice? dialect Kind.ofName?) kind
        names := ⟨← Names.read function, ← Names.read owner, ← Names.read struct,
          ← Names.read array⟩ }
  | _ => none

def ofValue? (dialect : Dialect) (v : Value) : Option Metadata :=
  (Value.fields? dialect fieldNames v).bind (ofFields? dialect)

end Metadata

namespace Chunk

def toFields (c : Chunk) : List (String × Value) :=
  ("content", .text c.content) :: c.toMetadata.toFields ++
    Value.ifSet "distance" (c.distance.map .single)

def toValue (c : Chunk) : Value := .record c.toFields

def ofFields? (dialect : Dialect) : List (Option Value) → Option Chunk
  | content :: fields => do
    let content ← Value.required Value.text? content
    let metadata ← Metadata.ofFields? dialect fields.dropLast
    let distance ← Value.orElse none (Value.optional? Value.single?) (fields.getLast?.join)
    some { metadata with content, distance }
  | [] => none

def ofValue? (dialect : Dialect) (v : Value) : Option Chunk :=
  (Value.fields? dialect (["content"] ++ Metadata.fieldNames ++ ["distance"]) v).bind
    (ofFields? dialect)

end Chunk

end CodeSearch
