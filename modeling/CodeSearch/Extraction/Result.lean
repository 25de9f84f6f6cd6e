import CodeSearch.Extraction.Pass

/-! # Extraction

A source that no grammar reads, or that is left out, gives a warning and no chunks.
-/

namespace CodeSearch

inductive Warning where
  | unsupported (file ext : String)
  | disabled (file : String) (language : Language)
  | unreadable (file cause : String)
  | tooLarge (file : String) (size limit : Nat)
  | unparsed (file : String)
  deriving DecidableEq

def Warning.message : Warning → String
  | unsupported file ext => file ++ ": unsupported file extension '" ++ ext ++ "'"
  | disabled file l => file ++ ": language " ++ l.name ++ " is disabled"
  | unreadable file cause => file ++ ": file could not be read: " ++ cause
  | tooLarge file size limit => s!"{file}: {size} bytes exceeds the {limit} byte limit"
  | unparsed file => file ++ ": parser produced no syntax tree"

/-- The parser of each language. -/
abbrev Parser := Language → Bytes → Option Tree

structure Extraction where
  /-- By the lines where they start. -/
  chunks : List Chunk
  warnings : List Warning

namespace Extraction

def skipped (w : Warning) : Extraction := ⟨[], [w]⟩

/-- The chunks of a source in a language. -/
def ofLanguage (parse : Parser) (o : Options) (source : Bytes) (name : String) (l : Language) :
    Extraction :=
  if !o.allows l then skipped (.disabled name l)
  else if o.maxBytes < source.length then skipped (.tooLarge name source.length o.maxBytes)
  else
    match parse l source with
    | none => skipped (.unparsed name)
    | some t => ⟨Setting.chunks ⟨o, l, source⟩ name t, []⟩

/-- The chunks of a source whose extension tells the language. -/
def ofSource (parse : Parser) (o : Options) (source : Bytes) (name ext : String) : Extraction :=
  match Language.ofExtension? ext with
  | none => skipped (.unsupported name ext)
  | some l => ofLanguage parse o source name l

end Extraction

end CodeSearch
