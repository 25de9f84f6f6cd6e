import CodeSearch.Chunk.Basic
import CodeSearch.Digest.Sha256

/-! # Ids of chunks

The id of a chunk is a digest of its source, the line where it starts and its text, with
bars between them. What was indexed before comes under the same id again.
-/

namespace CodeSearch

/-- The bytes that an id is the digest of. -/
def idBytes (source : String) (startLine : Nat) (content : String) : Bytes :=
  Utf8.encode (source ++ "|" ++ toString startLine ++ "|" ++ content)

def chunkId (source : String) (startLine : Nat) (content : String) : String :=
  sha256 (idBytes source startLine content)

def Chunk.id (c : Chunk) : String := chunkId c.source c.startLine c.content

end CodeSearch
