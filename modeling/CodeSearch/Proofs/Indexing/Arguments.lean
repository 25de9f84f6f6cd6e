import CodeSearch.Proofs.Indexing.Accounting
import CodeSearch.Proofs.Indexing.Naming

/-! # Arguments of a run

A run over paths looks at all of them before it does anything else. The first that leads neither to
a file nor to a directory is what the run fails for, and nothing has changed by then. If there is
none, the files that the paths stand for are indexed, one of each name, in the order of the names.
-/

namespace CodeSearch

instance (fs : FileSystem) (p : Path) : Decidable (fs.IsThere p) :=
  inferInstanceAs (Decidable (_ ∨ _))

namespace Indexing.Crew

variable {ε σ : Type} {m : Embedder ε} {b : Backend σ} {n : Nat} {xs : List Source}
variable {c : Crew ε σ} {w : Bench ε σ}

/-- A crew that is done has done what it was for, each source once. -/
theorem perm_finished (run : Run m b (start n xs w) c) (ended : c.working = []) :
    (c.finished.map Task.source).Perm xs := by
  have begun : ((start n xs w).tasks.map Task.source).Perm xs := by
    rw [tasks, start, List.append_nil, List.map_map]
    exact .of_eq (List.map_id _)
  have all : c.tasks = c.finished := by rw [tasks, ended, List.nil_append]
  exact all ▸ (perm_sources run).trans begun

end Indexing.Crew

namespace Workshop

open SourceFile Indexing

variable {ε σ : Type} {k : Workshop ε σ} {fs : FileSystem} {w : World ε σ}
variable {P before after : List Path} {p : Path} {f g : SourceFile} {files : List SourceFile}

/-! ## A path that is missing -/

theorem sourcesAt_error (gone : ¬fs.IsThere p) : k.sourcesAt fs p = .error (.badPath p.toText) := by
  obtain ⟨noFile, noDirectory⟩ := not_or.mp gone
  rw [sourcesAt, if_neg noDirectory, if_neg noFile]

/-- Paths are taken in order up to the first that is missing. -/
theorem collect_error (there : ∀ q ∈ before, fs.IsThere q) (gone : ¬fs.IsThere p) :
    k.collect fs (before ++ p :: after) = .error (.badPath p.toText) := by
  have found : (before ++ p :: after).mapM (k.sourcesAt fs) = .error (.badPath p.toText) := by
    induction before with
    | nil =>
      rw [List.nil_append, List.mapM_cons, sourcesAt_error gone]
      rfl
    | cons q before ih =>
      obtain ⟨first, rest⟩ := List.forall_mem_cons.mp there
      rw [List.cons_append, List.mapM_cons, sourcesAt_eq first, ih rest]
      rfl
  rw [collect, found]
  rfl

/-- Some path of those that are missing is the first. -/
theorem exists_first_missing (missing : ∃ p ∈ P, ¬fs.IsThere p) :
    ∃ before p after, P = before ++ p :: after ∧ (∀ q ∈ before, fs.IsThere q) ∧ ¬fs.IsThere p := by
  have found : (P.find? fun p => !decide (fs.IsThere p)).isSome := by
    apply List.find?_isSome.mpr
    obtain ⟨p, listed, gone⟩ := missing
    exact ⟨p, listed, by simpa using gone⟩
  obtain ⟨p, found⟩ := Option.isSome_iff_exists.mp found
  obtain ⟨gone, before, after, cut, there⟩ := List.find?_eq_some_iff_append.mp found
  refine ⟨before, p, after, cut, fun q listed => ?_, ?_⟩
  · simpa using there q listed
  · simpa using gone

/-! ## No path is missing -/

/-- What is indexed of the files that some paths stand for. -/
structure Gathers (k : Workshop ε σ) (fs : FileSystem) (P : List Path)
    (files : List SourceFile) : Prop where
  /-- The names come in order, each once. -/
  ascending : files.Pairwise fun f g => f.name < g.name
  /-- A file that is given itself is among them by its name. -/
  given : ∀ p ∈ P, fs.isFile p = true → ∃ f ∈ files, f.name = fs.sourceName k.indexer.anchor p
  /-- So is one that is found in a directory. -/
  scanned : ∀ p ∈ P, fs.isDirectory p = true → ∀ g ∈ k.sourcesIn fs p, ∃ f ∈ files, f.name = g.name
  /-- There are no others. -/
  stands : ∀ f ∈ files, ∃ p ∈ P, (fs.isDirectory p = true ∧ f ∈ k.sourcesIn fs p) ∨
    (fs.isFile p = true ∧ f = fs.sourceFile k.indexer.anchor p)
  /-- Each is the first of its name in the order of the paths. -/
  first : ∀ f, f ∈ files ↔ first? f.name (P.flatMap (k.filesAt fs)) = some f
  /-- If no two files share a name, each of them is indexed, by this path to it or another. -/
  whole : fs.canonicalOrSelf k.indexer.anchor = k.indexer.anchor →
    (∀ f g, k.Stands fs P f → k.Stands fs P g → f.name = g.name →
      fs.canonicalOrSelf f.path = fs.canonicalOrSelf g.path) →
    ∀ f, k.Stands fs P f → ∃ g ∈ files, fs.canonicalOrSelf g.path = fs.canonicalOrSelf f.path

theorem filesAt_of_isDirectory (directory : fs.isDirectory p = true) :
    k.filesAt fs p = k.sourcesIn fs p := if_pos directory

theorem filesAt_of_isFile (file : fs.isFile p = true) :
    k.filesAt fs p = [fs.sourceFile k.indexer.anchor p] := by
  rw [filesAt, FileSystem.isDirectory_of_isFile file, if_neg Bool.false_ne_true]

theorem gathers_collected (there : ∀ p ∈ P, fs.IsThere p) :
    k.Gathers fs P (distinct (sort (P.flatMap (k.filesAt fs)))) where
  ascending := (distinct_spec (pairwise_sort _)).1
  given p listed file := by
    apply name_mem_iff.mpr
    refine ⟨p, listed, fs.sourceFile k.indexer.anchor p, ?_, rfl⟩
    rw [filesAt_of_isFile file]
    exact List.mem_singleton_self _
  scanned p listed directory g among := by
    apply name_mem_iff.mpr
    exact ⟨p, listed, g, filesAt_of_isDirectory directory ▸ among, rfl⟩
  stands f listed := by
    obtain ⟨p, among, stands⟩ := stands_of_collected listed
    rcases there p among with file | directory
    · rw [filesAt_of_isFile file] at stands
      exact ⟨p, among, .inr ⟨file, List.mem_singleton.mp stands⟩⟩
    · exact ⟨p, among, .inl ⟨directory, filesAt_of_isDirectory directory ▸ stands⟩⟩
  first _ := mem_distinct_sort
  whole canonical apart f stands := by
    obtain ⟨files, collected, keeps⟩ := (keepsAll_iff canonical there).mpr apart
    obtain rfl := Except.ok.inj ((collect_eq there).symm.trans collected)
    exact keeps f stands

/-! ## Runs -/

/-- A run that is refused comes to nothing else and changes nothing. -/
theorem runs_iff_of_error {job : Job} {e : IndexError} (refused : k.undertake job w = .error e)
    (out : Except IndexError Stats × World ε σ) : k.Runs job w out ↔ out = (.error e, w) := by
  constructor
  · rintro (⟨refused'⟩ | ⟨undertaken⟩)
    · obtain rfl := Except.error.inj (refused.symm.trans refused')
      rfl
    · rw [refused] at undertaken
      cases undertaken
  · rintro rfl
    exact .refused refused

theorem undertake_paths (isReady : k.ready w = .ok ()) :
    k.undertake (.paths P) w =
      (k.collect w.files P).map fun files => files.map (k.sourceOf w.files) := by
  simp only [undertake, isReady]
  rfl

/-- A run for which paths are missing names the first of them and changes nothing. Otherwise it is
for the files that the paths stand for, and each of them is extracted once. -/
theorem paths_of_ready (k : Workshop ε σ) (w : World ε σ) (isReady : k.ready w = .ok ())
    (P : List Path) :
    ((∃ p ∈ P, ¬w.files.IsThere p) → ∃ before p after, P = before ++ p :: after ∧
      (∀ q ∈ before, w.files.IsThere q) ∧ ¬w.files.IsThere p ∧
      k.indexPaths P w = (.error (.badPath p.toText), w) ∧
      ∀ out, k.Runs (.paths P) w out ↔ out = (.error (.badPath p.toText), w)) ∧
    ((∀ p ∈ P, w.files.IsThere p) → ∃ files, k.Gathers w.files P files ∧
      k.undertake (.paths P) w = .ok (files.map (k.sourceOf w.files)) ∧
      k.indexPaths P w = k.indexFiles files w ∧
      ∀ out, k.Runs (.paths P) w out → ∃ c, Crew.Run k.embedder k.backend
          (.start k.indexer.batchSize (files.map (k.sourceOf w.files))
            ⟨w.embedder, w.backend, []⟩) c ∧
        (c.finished.map Task.source).Perm (files.map (k.sourceOf w.files)) ∧
        out = k.finish c.total
          { w with embedder := c.bench.embedder, backend := c.bench.backend }) := by
  constructor
  · intro missing
    obtain ⟨before, p, after, cut, there, gone⟩ := exists_first_missing missing
    have refused : k.undertake (.paths P) w = .error (.badPath p.toText) := by
      rw [undertake_paths isReady, cut, collect_error there gone]
      rfl
    have outcomes := runs_iff_of_error refused
    exact ⟨before, p, after, cut, there, gone, (outcomes _).mp (k.runs_run (.paths P) w), outcomes⟩
  · intro there
    have undertaken := undertake_paths (k := k) isReady (P := P)
    rw [collect_eq there] at undertaken
    refine ⟨_, gathers_collected there, undertaken, ?_, fun out runs => ?_⟩
    · simp only [indexPaths, isReady, collect_eq there]
    · cases runs with
      | refused refused =>
        rw [undertaken] at refused
        cases refused
      | done planned run ended =>
        obtain rfl := Except.ok.inj (undertaken.symm.trans planned)
        exact ⟨_, run, Crew.perm_finished run ended, rfl⟩

/-- An indexer that names files below the root and finds no syntax in them. -/
def plainIndexer : Workshop Unit Store :=
  ⟨⟨.standard, 1, 1, .ofPlace []⟩, fun _ _ => none, stubEmbedder 2, storeBackend⟩

/-- A store with a snapshot yet to be made, a file, and a file in a directory. -/
def twoFiles : World Unit Store :=
  ⟨(), ⟨some (.ofText "s.json"), 2, .l2, some ⟨.empty, .empty 2 .l2, .empty⟩⟩,
    ⟨[(["src"], .directory), (["src", "b.c"], .file []), (["a.c"], .file [])], []⟩⟩

/-- Of two paths that are missing the first is named. Without them the file is indexed by the one
name that two of the paths give it. -/
theorem paths_twoFiles : plainIndexer.ready twoFiles = .ok () ∧
    (∀ out, plainIndexer.Runs (.paths (["src", "no.c", "a.c", "gone"].map .ofText)) twoFiles out ↔
      out = (.error (.badPath "no.c"), twoFiles)) ∧
    ∃ files, plainIndexer.Gathers twoFiles.files (["src", "a.c", "./a.c"].map .ofText) files ∧
      ∃ f ∈ files, f.name = "a.c" := by
  have isReady : plainIndexer.ready twoFiles = .ok () := rfl
  have name : twoFiles.files.sourceName plainIndexer.indexer.anchor (.ofText "a.c") = "a.c" := by
    decide +kernel
  refine ⟨isReady, ?_, ?_⟩
  · have missing : ∃ p ∈ ["src", "no.c", "a.c", "gone"].map Path.ofText,
        ¬twoFiles.files.IsThere p := by decide +kernel
    obtain ⟨before, p, after, cut, there, gone, -, outcomes⟩ :=
      (paths_of_ready plainIndexer twoFiles isReady _).1 missing
    have first : (["src", "no.c", "a.c", "gone"].map Path.ofText).find?
        (fun p => !decide (twoFiles.files.IsThere p)) = some (.ofText "no.c") := by decide +kernel
    have same : p = .ofText "no.c" := by
      rw [cut, List.find?_append, List.find?_eq_none.mpr (by simpa using there)] at first
      simpa [gone] using first
    have text : (Path.ofText "no.c").toText = "no.c" := by decide +kernel
    rwa [same, text] at outcomes
  · have there : ∀ p ∈ ["src", "a.c", "./a.c"].map Path.ofText, twoFiles.files.IsThere p := by
      decide +kernel
    obtain ⟨files, gathers, -⟩ := (paths_of_ready plainIndexer twoFiles isReady _).2 there
    refine ⟨files, gathers, ?_⟩
    obtain ⟨f, listed, named⟩ := gathers.given (.ofText "a.c") (by decide) (by decide +kernel)
    exact ⟨f, listed, named.trans name⟩

end Workshop

end CodeSearch
