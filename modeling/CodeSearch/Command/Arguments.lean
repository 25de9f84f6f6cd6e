/-! # Arguments

Arguments are read from left to right. One that starts with a dash names switches, and all
that follow two dashes are operands. Any other one is the value of a switch that waits for
it, or leads to a branch with switches of its own, or is an operand. The first argument that
has no place ends the reading.
-/

namespace CodeSearch

/-- Why a command line is not run. -/
inductive Halt where
  | help
  | version
  | misuse
  deriving DecidableEq, Repr

/-- What a switch does to what the arguments have set so far. -/
inductive Effect (α : Type) where
  | halt (h : Halt)
  | mark (set : α → α)
  /-- Sets something from a value unless it refuses the value. -/
  | take (set : String → α → Option α)

structure Switch (α : Type) where
  name : String
  letter : Option Char
  effect : Effect α

/-- What may stand among the arguments. -/
structure Grammar (α β : Type) where
  switches : List (Switch α)
  operand : String → α → Option α
  branch : String → Option β

/-- A switch that is named but has not set anything yet. -/
structure Pending (α : Type) where
  name : String
  set : String → α → Option α
  value : Option String

structure Reading (α : Type) where
  result : α
  /-- The names of the switches that have set something. -/
  used : List String
  pending : Option (Pending α)

variable {α β : Type}

namespace Reading

def start (a : α) : Reading α := ⟨a, [], none⟩

/-- Note that a switch is used, which it may be once. -/
def use (name : String) (r : Reading α) : Except Halt (Reading α) :=
  if r.used.contains name then .error .misuse else .ok { r with used := name :: r.used }

/-- Set what a switch sets from a value. -/
def assign (name : String) (set : String → α → Option α) (value : String) (r : Reading α) :
    Except Halt (Reading α) :=
  (r.use name).bind fun r =>
    match set value r.result with
    | some a => .ok { r with result := a }
    | none => .error .misuse

/-- Let the switch that waits set what it sets. It needs a value for that. -/
def settle (r : Reading α) : Except Halt (Reading α) :=
  match r.pending with
  | none => .ok r
  | some ⟨name, set, some v⟩ => assign name set v { r with pending := none }
  | some ⟨_, _, none⟩ => .error .misuse

/-- Give a value to the switch that waits for one, if one does. -/
def fill? (value : String) (r : Reading α) : Option (Reading α) :=
  match r.pending with
  | some ⟨name, set, none⟩ => some { r with pending := some ⟨name, set, some value⟩ }
  | _ => none

end Reading

namespace Switch

/-- Use a switch without a value beside it. One that takes a value waits for it. -/
def use (s : Switch α) (r : Reading α) : Except Halt (Reading α) :=
  r.settle.bind fun r =>
    match s.effect with
    | .halt h => .error h
    | .mark set => (r.use s.name).map fun r => { r with result := set r.result }
    | .take set => .ok { r with pending := some ⟨s.name, set, none⟩ }

/-- Use a switch with a value beside it. -/
def useWith (s : Switch α) (value : String) (r : Reading α) : Except Halt (Reading α) :=
  match s.effect with
  | .take set => r.settle.bind (Reading.assign s.name set value)
  | _ => .error .misuse

end Switch

inductive Word where
  /-- Two dashes alone. -/
  | stop
  | name (s : String) (value : Option String)
  | letters (cs : List Char)
  | plain
  deriving DecidableEq, Repr

namespace Word

/-- Whether a character does not stand between a name and its value. -/
def isNamePart (c : Char) : Bool := c ≠ '='

/-- The value behind a name, if there is an equals sign. -/
def valueAfter : List Char → Option String
  | [] => none
  | _ :: cs => some (String.ofList cs)

def ofChars : List Char → Word
  | ['-', '-'] => stop
  | '-' :: '-' :: cs =>
    name (String.ofList (cs.takeWhile isNamePart)) (valueAfter (cs.dropWhile isNamePart))
  | ['-'] => plain
  | '-' :: cs => letters cs
  | _ => plain

def ofText (s : String) : Word := ofChars s.toList

end Word

namespace Grammar

def named? (g : Grammar α β) (name : String) : Option (Switch α) :=
  g.switches.find? fun s => s.name = name

def lettered? (g : Grammar α β) (c : Char) : Option (Switch α) :=
  g.switches.find? fun s => s.letter = some c

/-- The value in the letters behind a letter, after an equals sign if there is one. -/
def attached : List Char → String
  | '=' :: cs => String.ofList cs
  | cs => String.ofList cs

/-- Use the switches of some letters. One that takes a value takes the letters that are left. -/
def letters (g : Grammar α β) : List Char → Reading α → Except Halt (Reading α)
  | [], r => .ok r
  | c :: cs, r =>
    match g.lettered? c with
    | none => .error .misuse
    | some s =>
      match s.effect, cs with
      | .take _, _ :: _ => s.useWith (attached cs) r
      | _, _ => (s.use r).bind (letters g cs)

def byName (g : Grammar α β) (name : String) (value : Option String) (r : Reading α) :
    Except Halt (Reading α) :=
  match g.named? name, value with
  | none, _ => .error .misuse
  | some s, none => s.use r
  | some s, some v => s.useWith v r

def takeOperand (g : Grammar α β) (s : String) (r : Reading α) : Except Halt (Reading α) :=
  r.settle.bind fun r =>
    match g.operand s r.result with
    | some a => .ok { r with result := a }
    | none => .error .misuse

/-- Read arguments to their end or to a branch, which comes with the arguments after it. -/
def read (g : Grammar α β) :
    List String → Reading α → Except Halt (Reading α × Option (β × List String))
  | [], r => .ok (r, none)
  | arg :: args, r =>
    match Word.ofText arg with
    | .stop => (args.foldlM (fun r s => g.takeOperand s r) r).map fun r => (r, none)
    | .name s value => (g.byName s value r).bind (g.read args)
    | .letters cs => (g.letters cs r).bind (g.read args)
    | .plain =>
      match r.fill? arg with
      | some r => g.read args r
      | none =>
        match g.branch arg with
        | some b => .ok (r, some (b, args))
        | none => (g.takeOperand arg r).bind (g.read args)

end Grammar

end CodeSearch
