import CodeSearch.Files.Resolve

/-! # Changes to files

Each change is made whole or not at all. Making the directories on the way to a path is
several changes, and those made before a failure stay.
-/

namespace CodeSearch

namespace FileSystem

/-- Write a file, behind links if there are any. -/
def write (fs : FileSystem) (p : Path) (content : Bytes) : Except FileError FileSystem :=
  (fs.locate true p).bind fun place =>
    match fs.get? place with
    | some .directory => .error .isDirectory
    | _ => .ok (fs.set place (.file content))

/-- Open a file for writing, which makes an empty one if there is none. -/
def touch (fs : FileSystem) (p : Path) : Except FileError FileSystem :=
  (fs.locate true p).bind fun place =>
    match fs.get? place with
    | some .directory => .error .isDirectory
    | some _ => .ok fs
    | none => .ok (fs.set place (.file []))

/-- Make a directory where there is nothing. -/
def makeDirectory (fs : FileSystem) (p : Path) : Except FileError FileSystem :=
  let bare : Path := ⟨(p.pieces.reverse.dropWhile (· = "")).reverse⟩
  let target := if bare.pieces.isEmpty || bare.pieces = [""] then p else bare
  (fs.locate false target).bind fun place =>
    match fs.get? place with
    | some _ => .error .present
    | none => .ok (fs.set place .directory)

/-- Make a directory, and count one that is there as made. -/
def ensureDirectory (fs : FileSystem) (p : Path) : Except FileError FileSystem :=
  match fs.makeDirectory p with
  | .ok after => .ok after
  | .error e => if fs.isDirectory p then .ok fs else .error e

/-- Make a directory and those above it, at most `fuel` of them. -/
def makeDirectoriesFrom : Nat → FileSystem → Path → Except FileError Unit × FileSystem
  | 0, fs, _ => (.error .missing, fs)
  | fuel + 1, fs, p =>
    if p.toText = "" then (.ok (), fs)
    else
      match fs.ensureDirectory p with
      | .ok after => (.ok (), after)
      | .error .missing =>
        match p.parent? with
        | none => (.error .missing, fs)
        | some up =>
          match makeDirectoriesFrom fuel fs up with
          | (.error e, after) => (.error e, after)
          | (.ok _, after) =>
            match after.ensureDirectory p with
            | .ok made => (.ok (), made)
            | .error e => (.error e, after)
      | .error e => (.error e, fs)

/-- Make a directory and those above it. A path has no more of them than pieces. -/
def makeDirectories (fs : FileSystem) (p : Path) : Except FileError Unit × FileSystem :=
  makeDirectoriesFrom (p.pieces.length + 1) fs p

/-- Move a file, in place of what is there. -/
def rename (fs : FileSystem) (source target : Path) : Except FileError FileSystem := do
  let old ← fs.locate false source
  let new ← fs.locate false target
  match fs.get? old, fs.get? new with
  | none, _ => .error .missing
  | some .directory, _ => .error .isDirectory
  | _, some .directory => .error .isDirectory
  | some e, _ => .ok (if old = new then fs else (fs.erase old).set new e)

/-- Remove what a path leads to, links themselves and directories with all they hold. -/
def remove (fs : FileSystem) (p : Path) : Except FileError FileSystem := do
  let place ← fs.locate false p
  match fs.get? place with
  | none => .error .missing
  | some _ => .ok (fs.erase place)

end FileSystem

end CodeSearch
