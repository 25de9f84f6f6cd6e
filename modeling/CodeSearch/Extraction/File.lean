import CodeSearch.Extraction.Result
import CodeSearch.Files.Resolve

/-! # Extraction from files -/

namespace CodeSearch

namespace Extraction

/-- The chunks of a file, which go by a name. -/
def ofFile (parse : Parser) (o : Options) (fs : FileSystem) (p : Path) (name : String) :
    Extraction :=
  let ext := p.extension?.getD ""
  match Language.ofExtension? ext with
  | none => skipped (.unsupported name ext)
  | some l =>
    match fs.read p with
    | .error e => skipped (.unreadable name e.message)
    | .ok source => ofLanguage parse o source name l

/-- The name that the chunks of a file go by if none is given. -/
def defaultName (p : Path) : String := p.fileName?.getD p.toText

end Extraction

end CodeSearch
