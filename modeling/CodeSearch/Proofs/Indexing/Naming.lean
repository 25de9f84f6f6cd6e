import CodeSearch.Proofs.Files.Names
import CodeSearch.Proofs.Indexing.Collect

/-! # Which files are collected as one

Of the files of one name only the first is collected. So no file is lost exactly if those of one
name are one file, and a file whose name has a backslash can share a name with another file.
-/

namespace CodeSearch

namespace Workshop

open SourceFile

variable {ε σ : Type} {k : Workshop ε σ} {fs : FileSystem} {P : List Path} {f g : SourceFile}

/-- Each file that the paths stand for is collected, by this path to it or another. -/
def KeepsAll (k : Workshop ε σ) (fs : FileSystem) (P : List Path) : Prop :=
  ∃ files, k.collect fs P = .ok files ∧ ∀ f, k.Stands fs P f →
    ∃ g ∈ files, fs.canonicalOrSelf g.path = fs.canonicalOrSelf f.path

/-- No file is lost exactly if files of one name are at one place. -/
theorem keepsAll_iff (canonical : fs.canonicalOrSelf k.indexer.anchor = k.indexer.anchor)
    (there : ∀ p ∈ P, fs.IsThere p) :
    k.KeepsAll fs P ↔ ∀ f g, k.Stands fs P f → k.Stands fs P g → f.name = g.name →
      fs.canonicalOrSelf f.path = fs.canonicalOrSelf g.path := by
  constructor
  · rintro ⟨files, collected, keeps⟩ f g stands stands' same
    obtain rfl := Except.ok.inj ((collect_eq there).symm.trans collected)
    obtain ⟨f', listed, place⟩ := keeps f stands
    obtain ⟨g', listed', place'⟩ := keeps g stands'
    have name : f'.name = f.name :=
      name_eq_of_canonical canonical (stands_of_collected listed) stands place
    have name' : g'.name = g.name :=
      name_eq_of_canonical canonical (stands_of_collected listed') stands' place'
    -- each is the first of its name, and the names are equal
    have first := mem_distinct_sort.mp listed
    rw [name.trans (same.trans name'.symm), mem_distinct_sort.mp listed'] at first
    obtain rfl := Option.some.inj first
    exact place.symm.trans place'
  · intro apart
    refine ⟨_, collect_eq there, fun f stands => ?_⟩
    obtain ⟨p, among, listed⟩ := stands
    obtain ⟨g, listed', name⟩ := name_mem_iff.mpr ⟨p, among, f, listed, rfl⟩
    exact ⟨g, listed', apart g f (stands_of_collected listed') ⟨p, among, listed⟩ name⟩

/-- Below a canonical directory, and whatever paths lead to them, files have one path from there on
exactly if they have one canonical path, and one name exactly if these paths fall into the same
parts between slashes and backslashes. So names tell files without backslashes apart, but not all.
Paths are collected without loss exactly if the files of one name have one canonical path, so
without loss if no name has a backslash. -/
theorem tellsFilesApart_iff (k : Workshop ε σ) (named : fs.Named)
    (canonical : fs.canonicalOrSelf k.indexer.anchor = k.indexer.anchor)
    (directory : fs.isDirectory k.indexer.anchor = true) :
    (∀ p q, fs.isFile p = true → fs.isFile q = true →
      (fs.relative k.indexer.anchor p = fs.relative k.indexer.anchor q ↔
        fs.canonicalOrSelf p = fs.canonicalOrSelf q) ∧
      (fs.sourceName k.indexer.anchor p = fs.sourceName k.indexer.anchor q ↔
        (fs.relative k.indexer.anchor p).shards = (fs.relative k.indexer.anchor q).shards) ∧
      ((fs.relative k.indexer.anchor p).Plain → (fs.relative k.indexer.anchor q).Plain →
        (fs.sourceName k.indexer.anchor p = fs.sourceName k.indexer.anchor q ↔
          fs.canonicalOrSelf p = fs.canonicalOrSelf q))) ∧
    ∀ P, (∀ p ∈ P, fs.IsThere p) →
      (k.KeepsAll fs P ↔ ∀ f g, k.Stands fs P f → k.Stands fs P g → f.name = g.name →
        fs.canonicalOrSelf f.path = fs.canonicalOrSelf g.path) ∧
      ((∀ f, k.Stands fs P f →
          fs.isFile f.path = true ∧ (fs.relative k.indexer.anchor f.path).Plain) →
        k.KeepsAll fs P) := by
  obtain ⟨base, anchor, anchored⟩ := FileSystem.exists_anchor canonical directory
  constructor
  · intro p q file file'
    rw [anchor]
    refine ⟨FileSystem.relative_eq_iff named anchored file file',
      FileSystem.sourceName_eq_iff named anchored file file', fun plain plain' => ?_⟩
    exact FileSystem.sourceName_eq_iff_of_plain named anchored file file' plain plain'
  · intro P there
    refine ⟨keepsAll_iff canonical there, fun plain => ?_⟩
    refine (keepsAll_iff canonical there).mpr fun f g stands stands' same => ?_
    obtain ⟨file, clear⟩ := plain f stands
    obtain ⟨file', clear'⟩ := plain g stands'
    obtain ⟨p, -, listed⟩ := stands
    obtain ⟨q, -, listed'⟩ := stands'
    rw [name_of_mem_filesAt canonical listed, name_of_mem_filesAt canonical listed', anchor] at same
    rw [anchor] at clear clear'
    exact (FileSystem.sourceName_eq_iff_of_plain named anchored file file' clear clear').mp same

/-- A file in a directory, and one beside the directory whose name has a backslash for the slash. -/
def slashedFiles : FileSystem :=
  ⟨[(["a"], .directory), (["a", "b.c"], .file []), (["a\\b.c"], .file [])], []⟩

/-- An indexer for them that names files below the root. -/
def slashing : Workshop Unit Store :=
  ⟨⟨.strict, 1, 1, .ofPlace []⟩, fun _ _ => none, stubEmbedder 2, storeBackend⟩

/-- The two files have one name, and only one of them is collected. -/
theorem not_tellsFilesApart_backslash :
    slashedFiles.isFile (.ofText "a/b.c") = true ∧ slashedFiles.isFile (.ofText "a\\b.c") = true ∧
      slashedFiles.sourceName slashing.indexer.anchor (.ofText "a/b.c") =
        slashedFiles.sourceName slashing.indexer.anchor (.ofText "a\\b.c") ∧
      slashedFiles.canonicalOrSelf (.ofText "a/b.c") ≠
        slashedFiles.canonicalOrSelf (.ofText "a\\b.c") ∧
      ¬slashing.KeepsAll slashedFiles [.ofText "a/b.c", .ofText "a\\b.c"] := by
  have named : slashedFiles.Named := by
    unfold FileSystem.Named FileSystem.Proper
    decide +kernel
  obtain ⟨apart, kept⟩ := tellsFilesApart_iff slashing named (by decide +kernel) (by decide +kernel)
  have file : slashedFiles.isFile (.ofText "a/b.c") = true := by decide +kernel
  have file' : slashedFiles.isFile (.ofText "a\\b.c") = true := by decide +kernel
  have names := (apart _ _ file file').2.1.mpr (by decide +kernel)
  have places : slashedFiles.canonicalOrSelf (.ofText "a/b.c") ≠
      slashedFiles.canonicalOrSelf (.ofText "a\\b.c") := by decide +kernel
  refine ⟨file, file', names, places, fun keeps => ?_⟩
  have there : ∀ p ∈ [Path.ofText "a/b.c", Path.ofText "a\\b.c"], slashedFiles.IsThere p := by
    rintro p listed
    rcases List.mem_pair.mp listed with rfl | rfl
    · exact .inl file
    · exact .inl file'
  have stands (p : Path) (listed : p ∈ [Path.ofText "a/b.c", Path.ofText "a\\b.c"])
      (file : slashedFiles.isFile p = true) : slashing.Stands slashedFiles
        [.ofText "a/b.c", .ofText "a\\b.c"] (slashedFiles.sourceFile slashing.indexer.anchor p) := by
    refine ⟨p, listed, ?_⟩
    rw [filesAt, FileSystem.isDirectory_of_isFile file, if_neg Bool.false_ne_true]
    exact List.mem_singleton_self _
  exact places ((kept _ there).1.mp keeps _ _ (stands _ (by simp) file) (stands _ (by simp) file')
    names)

end Workshop

end CodeSearch
