import CodeSearch.Text.Split

/-! # Paths

A path is kept as the pieces between its slashes, so its text is never lost. Its steps
leave out empty pieces and dots, except that a dot at the start counts.
-/

namespace CodeSearch

structure Path where
  pieces : List String
  deriving DecidableEq

namespace Path

def ofText (s : String) : Path := ⟨Text.splitAt '/' s⟩

def toText (p : Path) : String := "/".intercalate p.pieces

inductive Step where
  | root
  | here
  | up
  | name (s : String)
  deriving DecidableEq

/-- What a path starts with before its body. -/
inductive Lead where
  | root | here | none
  deriving DecidableEq

def lead (p : Path) : Lead :=
  match p.pieces with
  | "" :: _ :: _ => .root
  | "." :: _ => .here
  | _ => .none

def body (p : Path) : List String :=
  match p.lead with
  | .none => p.pieces
  | _ => p.pieces.tail

def build : Lead → List String → Path
  | .root, [] => ⟨["", ""]⟩
  | .root, ps => ⟨"" :: ps⟩
  | .here, ps => ⟨"." :: ps⟩
  | .none, [] => ⟨[""]⟩
  | .none, ps => ⟨ps⟩

/-- A piece of a body that is no step. -/
def isIdle (piece : String) : Bool := piece = "" || piece = "."

def step? (piece : String) : Option Step :=
  if isIdle piece then none else if piece = ".." then some .up else some (.name piece)

def leadSteps : Lead → List Step
  | .root => [.root]
  | .here => [.here]
  | .none => []

def steps (p : Path) : List Step := leadSteps p.lead ++ p.body.filterMap step?

def isAbsolute (p : Path) : Bool := p.lead = .root

/-- Drop the pieces at the end that are no steps. -/
def trimEnd (ps : List String) : List String := (ps.reverse.dropWhile isIdle).reverse

/-- Drop the pieces at both ends that are no steps. -/
def trim (ps : List String) : List String := trimEnd (ps.dropWhile isIdle)

/-- The last step, if it is a name. -/
def fileName? (p : Path) : Option String :=
  match p.steps.getLast? with
  | some (.name s) => some s
  | _ => none

/-- A file name cut at its last dot. A dot at the start does not count. -/
def cut (name : String) : String × Option String :=
  let back := name.toList.reverse
  let ext := back.takeWhile (· ≠ '.')
  match back.dropWhile (· ≠ '.') with
  | _ :: stem =>
    if stem.isEmpty then (name, none)
    else (String.ofList stem.reverse, some (String.ofList ext.reverse))
  | [] => (name, none)

/-- What follows the last dot of the file name. -/
def extension? (p : Path) : Option String := p.fileName?.bind fun name => (cut name).2

/-- The path whose file name has another extension. -/
def withExtension (ext : String) (p : Path) : Path :=
  match p.fileName? with
  | none => p
  | some name => build p.lead ((trimEnd p.body).dropLast ++ [(cut name).1 ++ "." ++ ext])

/-- The path without its last step. -/
def parent? (p : Path) : Option Path :=
  match trimEnd p.body, p.lead with
  | [], .here => some ⟨[""]⟩
  | [], _ => none
  | ps, l => some (build l (trimEnd ps.dropLast))

/-- The path one name below. -/
def join (p : Path) (name : String) : Path :=
  match p.pieces.getLast? with
  | some "" => ⟨p.pieces.dropLast ++ [name]⟩
  | _ => ⟨p.pieces ++ [name]⟩

/-- The pieces after a number of steps. -/
def dropSteps : Nat → List String → List String
  | 0, ps => ps
  | _ + 1, [] => []
  | n + 1, p :: ps => if isIdle p then dropSteps (n + 1) ps else dropSteps n ps

/-- What a path adds to another that its steps start with. -/
def strip? (base p : Path) : Option Path :=
  if base.steps.isPrefixOf p.steps then
    let given := leadSteps base.lead
    if base.steps.isEmpty then some p
    else some (build .none (trim (dropSteps (base.steps.length - given.length) p.body)))
  else none

/-- The absolute path of a place, given by the names from the root down. -/
def ofPlace (names : List String) : Path := build .root names

end Path

end CodeSearch
