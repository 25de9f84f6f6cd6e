import Mathlib.Data.List.Basic
import CodeSearch.Proofs.Files.Canonical

/-! # What the name of a file tells

A file is named by its path below an anchor, with slashes for backslashes. The path gives back where
the file is. The name gives back the path cut at its slashes and at its backslashes, and it does not
tell which of the cuts is which.
-/

namespace CodeSearch

/-! ## Cutting texts -/

namespace Text

variable {sep : Char} {cs : List Char} {s : String}

theorem splitChars_of_notMem (clear : sep ∉ cs) : splitChars sep cs = [cs] := by
  induction cs with
  | nil => rfl
  | cons c cs ih =>
    have other := List.ne_of_not_mem_cons clear
    rw [splitChars, if_neg (Ne.symm other), ih (List.not_mem_of_not_mem_cons clear)]

/-- A separator cuts what is before it from what comes then. -/
theorem splitChars_append (sep : Char) (as bs : List Char) :
    splitChars sep (as ++ sep :: bs) = splitChars sep as ++ splitChars sep bs := by
  induction as with
  | nil => simp [splitChars]
  | cons a as ih =>
    rw [List.cons_append, splitChars, splitChars, ih]
    split
    · rfl
    · cases parts : splitChars sep as with
      | nil => exact absurd parts (splitChars_ne_nil sep as)
      | cons part parts => rfl

theorem splitAt_injective (sep : Char) : Function.Injective (splitAt sep) := by
  intro s t h
  have chars : splitChars sep s.toList = splitChars sep t.toList :=
    (List.map_inj_right fun _ _ => String.ofList_inj.mp).mp h
  apply String.toList_inj.mp
  calc s.toList = [sep].intercalate (splitChars sep s.toList) := (intercalate_splitChars ..).symm
    _ = [sep].intercalate (splitChars sep t.toList) := by rw [chars]
    _ = t.toList := intercalate_splitChars ..

/-- A slash for a backslash. -/
def slash (c : Char) : Char := if c = '\\' then '/' else c

/-- Where there is no slash the slashes for backslashes are the only cuts. -/
theorem splitChars_map_slash (clear : '/' ∉ cs) :
    splitChars '/' (cs.map slash) = splitChars '\\' cs := by
  induction cs with
  | nil => rfl
  | cons c cs ih =>
    have other := List.ne_of_not_mem_cons clear
    rw [List.map_cons, splitChars, splitChars, ih (List.not_mem_of_not_mem_cons clear)]
    by_cases back : c = '\\'
    · subst back
      rfl
    · have kept : slash c = c := if_neg back
      rw [kept, if_neg back, if_neg (Ne.symm other)]

end Text

namespace Path

variable {p q : Path} {ps base place : List String}

/-- The parts of a path between slashes or backslashes. -/
def shards (p : Path) : List String := p.pieces.flatMap (Text.splitAt '\\')

/-- A path without backslashes. -/
def Plain (p : Path) : Prop := ∀ s ∈ p.pieces, '\\' ∉ s.toList

/-- A path whose pieces are what is between its slashes. -/
structure Parted (p : Path) : Prop where
  filled : p.pieces ≠ []
  clear : ∀ s ∈ p.pieces, '/' ∉ s.toList

theorem splitChars_toText (filled : ps ≠ []) :
    Text.splitChars '/' ((Path.mk ps).toText.toList.map Text.slash) =
      ps.flatMap fun s => Text.splitChars '/' (s.toList.map Text.slash) := by
  induction ps with
  | nil => exact absurd rfl filled
  | cons s ps ih =>
    by_cases last : ps = []
    · subst last
      simp [toText]
    · have text : (Path.mk (s :: ps)).toText = s ++ "/" ++ (Path.mk ps).toText :=
        String.intercalate_cons_of_ne_nil last
      have chars : (Path.mk (s :: ps)).toText.toList.map Text.slash =
          s.toList.map Text.slash ++ '/' :: (Path.mk ps).toText.toList.map Text.slash := by
        rw [text]
        simp [Text.slash]
      rw [chars, Text.splitChars_append, ih last, List.flatMap_cons]

/-- With slashes for backslashes a path falls into its shards. -/
theorem Parted.splitAt_slashed (parted : p.Parted) : Text.splitAt '/' p.slashed = p.shards := by
  have chars : p.slashed.toList = p.toText.toList.map Text.slash := String.toList_ofList
  rw [Text.splitAt, chars, splitChars_toText parted.filled, List.map_flatMap]
  apply List.flatMap_congr
  intro s listed
  rw [Text.splitChars_map_slash (parted.clear s listed), Text.splitAt]

theorem slashed_eq_iff (parted : p.Parted) (parted' : q.Parted) :
    p.slashed = q.slashed ↔ p.shards = q.shards := by
  rw [← parted.splitAt_slashed, ← parted'.splitAt_slashed]
  exact (Text.splitAt_injective '/').eq_iff.symm

theorem Plain.shards_eq (plain : p.Plain) : p.shards = p.pieces := by
  calc p.shards = p.pieces.flatMap fun s => [s] := by
        apply List.flatMap_congr
        intro s listed
        rw [Text.splitAt, Text.splitChars_of_notMem (plain s listed), List.map_singleton,
          String.ofList_toList]
    _ = p.pieces := List.flatMap_singleton' _

/-! ## Paths of places -/

theorem not_idle_of_step {s : String} (step : step? s = some (.name s)) : isIdle s = false := by
  by_contra idle
  rw [step?_eq_none.mpr (by simpa using idle)] at step
  cases step

theorem dropWhile_proper (proper : FileSystem.Proper ps) : ps.dropWhile isIdle = ps := by
  cases ps with
  | nil => rfl
  | cons s ps => rw [List.dropWhile_cons, not_idle_of_step (proper s List.mem_cons_self)]; rfl

theorem trim_proper (proper : FileSystem.Proper ps) : trim ps = ps := by
  have back : FileSystem.Proper ps.reverse := fun s listed => proper s (List.mem_reverse.mp listed)
  rw [trim, dropWhile_proper proper, trimEnd, dropWhile_proper back, List.reverse_reverse]

theorem dropSteps_proper (proper : FileSystem.Proper ps) (n : Nat) : dropSteps n ps = ps.drop n := by
  induction ps generalizing n with
  | nil => cases n <;> rfl
  | cons s ps ih =>
    obtain ⟨first, rest⟩ := List.forall_mem_cons.mp proper
    cases n with
    | zero => rfl
    | succ n => simp [dropSteps, not_idle_of_step first, ih rest]

theorem filterMap_proper (proper : FileSystem.Proper ps) : ps.filterMap step? = ps.map .name := by
  induction ps with
  | nil => rfl
  | cons s ps ih =>
    obtain ⟨first, rest⟩ := List.forall_mem_cons.mp proper
    rw [List.filterMap_cons_some first, ih rest, List.map_cons]

theorem ofPlace_eq (below : place ≠ []) : ofPlace place = ⟨"" :: place⟩ := by
  cases place with
  | nil => exact absurd rfl below
  | cons s place => rfl

theorem lead_ofPlace (place : Place) : (ofPlace place).lead = .root := by
  cases place <;> rfl

theorem steps_ofPlace (proper : FileSystem.Proper place) :
    (ofPlace place).steps = .root :: place.map .name := by
  cases place with
  | nil => rfl
  | cons s place =>
    change .root :: (s :: place).filterMap step? = _
    rw [filterMap_proper proper]

/-- What the path of a place adds to that of another. -/
theorem strip?_ofPlace (proper : FileSystem.Proper base) (proper' : FileSystem.Proper place)
    (below : place ≠ []) : strip? (ofPlace base) (ofPlace place) =
      if base <+: place then some (build .none (place.drop base.length)) else none := by
  have steps : ((ofPlace base).steps.isPrefixOf (ofPlace place).steps) = true ↔ base <+: place := by
    rw [steps_ofPlace proper, steps_ofPlace proper', List.isPrefixOf_iff_prefix,
      List.prefix_cons_inj]
    exact List.prefix_map_iff_of_injective fun s t same => Step.name.inj same
  have body : (ofPlace place).body = place := by
    obtain ⟨s, names, rfl⟩ := List.exists_cons_of_ne_nil below
    rfl
  have count : (ofPlace base).steps.length - (leadSteps (ofPlace base).lead).length =
      base.length := by
    rw [steps_ofPlace proper, lead_ofPlace]
    simp [leadSteps]
  have filled : (ofPlace base).steps.isEmpty = false := by
    rw [steps_ofPlace proper]
    rfl
  have rest : FileSystem.Proper (place.drop base.length) :=
    fun s listed => proper' s (List.mem_of_mem_drop listed)
  unfold strip?
  dsimp only
  rw [body, count, filled, dropSteps_proper proper', trim_proper rest]
  simp [steps]

/-- The pieces from one place to another, or from the root if it is not below. -/
def between (base place : Place) : List String :=
  if base <+: place then place.drop base.length else "" :: place

/-- A place is known by the pieces that lead to it. -/
theorem between_injective {place' : Place} (proper : FileSystem.Proper place)
    (proper' : FileSystem.Proper place') (away : place ≠ base) (away' : place' ≠ base)
    (h : between base place = between base place') : place = place' := by
  -- the pieces from the root start with one that no name is
  have apart {names other : List String} (named : FileSystem.Proper (base ++ names))
      (more : base ++ names ≠ base) : names ≠ "" :: other := by
    rintro rfl
    exact absurd (named "" (by simp)) (by decide)
  unfold between at h
  by_cases below : base <+: place <;> by_cases below' : base <+: place'
  · obtain ⟨names, rfl⟩ := below
    obtain ⟨names', rfl⟩ := below'
    simpa using h
  · obtain ⟨names, rfl⟩ := below
    rw [if_pos (List.prefix_append ..), if_neg below', List.drop_left] at h
    exact absurd h (apart proper away)
  · obtain ⟨names', rfl⟩ := below'
    rw [if_neg below, if_pos (List.prefix_append ..), List.drop_left] at h
    exact absurd h.symm (apart proper' away')
  · simpa [below, below'] using h

end Path

namespace FileSystem

variable {fs : FileSystem} {base place : Place} {anchor p q : Path}

/-- What is there has a name that can be a piece of a path. -/
def Named (fs : FileSystem) : Prop :=
  ∀ entry ∈ fs.entries, Proper entry.1 ∧ ∀ s ∈ entry.1, '/' ∉ s.toList

theorem mem_of_find? {e : Entry} {entries : List (Place × Entry)}
    (found : find? place entries = some e) : (place, e) ∈ entries := by
  induction entries with
  | nil => cases found
  | cons entry entries ih =>
    obtain ⟨other, e'⟩ := entry
    rw [find?] at found
    split at found
    · rename_i same
      subst same
      obtain rfl := Option.some.inj found
      exact List.mem_cons_self
    · exact List.mem_cons_of_mem _ (ih found)

theorem Named.of_get? (named : fs.Named) {e : Entry} (there : fs.get? place = some e) :
    Proper place ∧ ∀ s ∈ place, '/' ∉ s.toList := by
  unfold get? at there
  split at there
  · rename_i root
    subst root
    exact ⟨nofun, nofun⟩
  · exact named _ (mem_of_find? there)

/-- The canonical path of a file from an anchor on, or from the root. -/
def relative (fs : FileSystem) (anchor p : Path) : Path :=
  (Path.strip? anchor (fs.canonicalOrSelf p)).getD (fs.canonicalOrSelf p)

/-- What a path leads to is at its canonical place. -/
theorem entry?_eq_ok_iff {e : Entry} :
    fs.entry? p = .ok e ↔ ∃ place, fs.canonical? p = .ok place ∧ fs.get? place = some e := by
  simp only [entry?_ok, canonical?_ok, and_assoc]
  constructor
  · rintro ⟨place, located, there⟩
    exact ⟨place, located, by simp [there], there⟩
  · rintro ⟨place, located, -, there⟩
    exact ⟨place, located, there⟩

theorem isFile_iff : fs.isFile p = true ↔
    ∃ place content, fs.canonical? p = .ok place ∧ fs.get? place = some (.file content) := by
  unfold isFile
  constructor
  · intro file
    split at file
    · rename_i content found
      obtain ⟨place, own, there⟩ := entry?_eq_ok_iff.mp found
      exact ⟨place, content, own, there⟩
    · cases file
  · rintro ⟨place, content, own, there⟩
    rw [entry?_eq_ok_iff.mpr ⟨place, own, there⟩]

/-- A directory that is its own canonical path is the path of a place. -/
theorem exists_anchor (canonical : fs.canonicalOrSelf anchor = anchor)
    (directory : fs.isDirectory anchor = true) :
    ∃ base, anchor = .ofPlace base ∧ fs.get? base = some .directory := by
  unfold isDirectory at directory
  split at directory
  · rename_i found
    obtain ⟨base, own, there⟩ := entry?_eq_ok_iff.mp found
    rw [canonicalOrSelf, own] at canonical
    exact ⟨base, canonical.symm, there⟩
  · cases directory

section

variable (named : fs.Named) (anchored : fs.get? base = some .directory) {content : Bytes}

include named anchored

/-- A file is known by the pieces from the anchor on. -/
theorem relative_of_file (own : fs.canonical? p = .ok place)
    (there : fs.get? place = some (.file content)) :
    place ≠ base ∧ (fs.relative (.ofPlace base) p).pieces = Path.between base place := by
  have away : place ≠ base := by
    rintro rfl
    cases anchored.symm.trans there
  have below : place ≠ [] := by
    rintro rfl
    cases there
  refine ⟨away, ?_⟩
  rw [relative, canonicalOrSelf, own, Path.strip?_ofPlace (named.of_get? anchored).1
    (named.of_get? there).1 below, Path.between]
  split
  · rename_i inside
    obtain ⟨names, rfl⟩ := inside
    have more : names ≠ [] := fun none => away (by rw [none, List.append_nil])
    obtain ⟨s, rest, rfl⟩ := List.exists_cons_of_ne_nil more
    rw [List.drop_left]
    rfl
  · exact congrArg Path.pieces (Path.ofPlace_eq below)

theorem parted_relative (file : fs.isFile p = true) : (fs.relative (.ofPlace base) p).Parted := by
  obtain ⟨place, content, own, there⟩ := isFile_iff.mp file
  obtain ⟨away, pieces⟩ := relative_of_file named anchored own there
  have clear := (named.of_get? there).2
  constructor
  · rw [pieces]
    unfold Path.between
    split
    · rename_i inside
      obtain ⟨names, rfl⟩ := inside
      rw [List.drop_left]
      exact fun none => away (by rw [none, List.append_nil])
    · exact List.cons_ne_nil _ _
  · rw [pieces]
    unfold Path.between
    split
    · exact fun s listed => clear s (List.mem_of_mem_drop listed)
    · exact List.forall_mem_cons.mpr ⟨by decide, clear⟩

/-- Files have one path from the anchor on only if they have one canonical path. -/
theorem relative_eq_iff (file : fs.isFile p = true) (file' : fs.isFile q = true) :
    fs.relative (.ofPlace base) p = fs.relative (.ofPlace base) q ↔
      fs.canonicalOrSelf p = fs.canonicalOrSelf q := by
  constructor
  · intro same
    obtain ⟨place, content, own, there⟩ := isFile_iff.mp file
    obtain ⟨place', content', own', there'⟩ := isFile_iff.mp file'
    obtain ⟨away, pieces⟩ := relative_of_file named anchored own there
    obtain ⟨away', pieces'⟩ := relative_of_file named anchored own' there'
    have between : Path.between base place = Path.between base place' := by
      rw [← pieces, ← pieces', same]
    have places : place = place' :=
      Path.between_injective (named.of_get? there).1 (named.of_get? there').1 away away' between
    rw [canonicalOrSelf, canonicalOrSelf, own, own', places]
  · intro same
    rw [relative, relative, same]

/-- Files have one name exactly if their paths fall into the same shards. -/
theorem sourceName_eq_iff (file : fs.isFile p = true) (file' : fs.isFile q = true) :
    fs.sourceName (.ofPlace base) p = fs.sourceName (.ofPlace base) q ↔
      (fs.relative (.ofPlace base) p).shards = (fs.relative (.ofPlace base) q).shards :=
  Path.slashed_eq_iff (parted_relative named anchored file) (parted_relative named anchored file')

/-- Without backslashes files have one name only if they have one canonical path. -/
theorem sourceName_eq_iff_of_plain (file : fs.isFile p = true) (file' : fs.isFile q = true)
    (plain : (fs.relative (.ofPlace base) p).Plain)
    (plain' : (fs.relative (.ofPlace base) q).Plain) :
    fs.sourceName (.ofPlace base) p = fs.sourceName (.ofPlace base) q ↔
      fs.canonicalOrSelf p = fs.canonicalOrSelf q := by
  rw [← relative_eq_iff named anchored file file', sourceName_eq_iff named anchored file file',
    plain.shards_eq, plain'.shards_eq]
  exact ⟨congrArg Path.mk, congrArg Path.pieces⟩

end

end FileSystem

end CodeSearch
