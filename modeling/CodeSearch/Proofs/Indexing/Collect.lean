import CodeSearch.Proofs.Files.Canonical
import CodeSearch.Proofs.Indexing.Schedule

/-! # Collecting files

Of the files that paths stand for, each name keeps the one that comes first, and the names come in
order. A file is named by the place that it is found at, so no place is collected twice, and another
path to a file changes no name.
-/

namespace CodeSearch

/-- Sorting keeps the order of what a test passes if the test lets the order say nothing. -/
theorem mergeSort_filter_of_tied {α : Type} {le : α → α → Bool}
    (trans : ∀ a b c, le a b = true → le b c = true → le a c = true)
    (total : ∀ a b, (le a b || le b a) = true) {p : α → Bool}
    (tied : ∀ a b, p a = true → p b = true → le a b = true) (as : List α) :
    (as.mergeSort le).filter p = as.filter p := by
  have ordered : (as.filter p).Pairwise fun a b => le a b = true := by
    refine List.pairwise_of_forall_mem_list fun a listed b listed' => ?_
    exact tied a b (List.mem_filter.mp listed).2 (List.mem_filter.mp listed').2
  have inside : (as.filter p).Sublist (as.mergeSort le) :=
    List.sublist_mergeSort trans total ordered List.filter_sublist
  have kept := inside.filter p
  rw [List.filter_filter] at kept
  simp only [Bool.and_self] at kept
  exact (kept.eq_of_length ((List.mergeSort_perm as le).filter p).length_eq.symm).symm

namespace SourceFile

variable {files : List SourceFile} {f g : SourceFile}

/-- The first of the files of a name. -/
def first? (name : String) (files : List SourceFile) : Option SourceFile :=
  files.find? fun f => f.name = name

theorem first?_some {name : String} (found : first? name files = some f) :
    f ∈ files ∧ f.name = name := by
  unfold first? at found
  exact ⟨List.mem_of_find?_eq_some found, by simpa using List.find?_some found⟩

theorem first?_cons (name : String) (f : SourceFile) (files : List SourceFile) :
    first? name (f :: files) = if f.name = name then some f else first? name files := by
  by_cases same : f.name = name <;> simp [first?, same]

/-- Among files with names of their own each is the first of its name. -/
theorem first?_of_mem (ascending : files.Pairwise fun f g => f.name < g.name)
    (listed : f ∈ files) : first? f.name files = some f := by
  induction files with
  | nil => cases listed
  | cons g files ih =>
    obtain ⟨before, rest⟩ := List.pairwise_cons.mp ascending
    rw [first?_cons]
    rcases List.mem_cons.mp listed with rfl | later
    · rw [if_pos rfl]
    · rw [if_neg fun same => String.lt_irrefl _ (same ▸ before f later), ih rest later]

theorem first?_sort (name : String) (files : List SourceFile) :
    first? name (sort files) = first? name files := by
  rw [first?, first?, ← List.head?_filter, ← List.head?_filter]
  congr 1
  refine mergeSort_filter_of_tied (fun a b c => ?_) (fun a b => ?_) (fun a b => ?_) files
  · simp only [decide_eq_true_eq]
    exact Std.le_trans
  · simp only [Bool.or_eq_true, decide_eq_true_eq]
    exact Std.le_total
  · simp only [decide_eq_true_eq]
    rintro rfl same
    exact same ▸ Std.le_refl _

theorem pairwise_sort (files : List SourceFile) :
    (sort files).Pairwise fun f g => f.name ≤ g.name := by
  refine (List.pairwise_mergeSort (fun a b c => ?_) (fun a b => ?_) files).imp of_decide_eq_true
  · simp only [decide_eq_true_eq]
    exact Std.le_trans
  · simp only [Bool.or_eq_true, decide_eq_true_eq]
    exact Std.le_total

/-- Of files in order, one of each name is left, the first. -/
theorem distinct_spec (sorted : files.Pairwise fun f g => f.name ≤ g.name) :
    (distinct files).Pairwise (fun f g => f.name < g.name) ∧
      ∀ name, first? name (distinct files) = first? name files := by
  induction files with
  | nil => exact ⟨.nil, fun _ => rfl⟩
  | cons f fs ih =>
    obtain ⟨least, rest⟩ := List.pairwise_cons.mp sorted
    obtain ⟨ascending, same⟩ := ih rest
    cases left : distinct fs with
    | nil =>
      rw [left] at same
      have alone : distinct (f :: fs) = [f] := by rw [distinct, left]
      rw [alone]
      refine ⟨List.pairwise_singleton .., fun name => ?_⟩
      rw [first?_cons, first?_cons, ← same]
    | cons g gs =>
      rw [left] at same ascending
      obtain ⟨below, tail⟩ := List.pairwise_cons.mp ascending
      have among : g ∈ fs := by
        have found := same g.name
        rw [first?_cons, if_pos rfl] at found
        exact (first?_some found.symm).1
      have more : distinct (f :: fs) = if f.name = g.name then f :: gs else f :: g :: gs := by
        rw [distinct, left]
      rw [more]
      split
      · rename_i twins
        refine ⟨List.pairwise_cons.mpr ⟨fun x later => twins ▸ below x later, tail⟩, fun name => ?_⟩
        rw [first?_cons, first?_cons, ← same, first?_cons, twins]
        split <;> rfl
      · rename_i other
        have before : f.name < g.name := Std.lt_of_le_of_ne (least g among) other
        refine ⟨List.pairwise_cons.mpr ⟨fun x later => ?_, ascending⟩, fun name => ?_⟩
        · rcases List.mem_cons.mp later with rfl | later
          · exact before
          · exact String.lt_trans before (below x later)
        · rw [first?_cons, same, first?_cons]

/-- The files that are left, by where they come from. -/
theorem mem_distinct_sort : f ∈ distinct (sort files) ↔ first? f.name files = some f := by
  obtain ⟨ascending, same⟩ := distinct_spec (pairwise_sort files)
  rw [← first?_sort, ← same]
  exact ⟨first?_of_mem ascending, fun found => (first?_some found).1⟩

end SourceFile

/-! ## Other paths to the same files -/

namespace FileSystem

variable {fs : FileSystem} {p q r : Path} {P Q : List Path} {place : Place}

/-- A path and itself, or two paths to one file. -/
def Meets (fs : FileSystem) (p q : Path) : Prop :=
  p = q ∨ fs.isFile p = true ∧ ∃ place, fs.canonical? p = .ok place ∧ fs.canonical? q = .ok place

/-- Other arguments for the same files: in another order, some of them again, or another path in
place of one to a file. -/
inductive Respelled (fs : FileSystem) : List Path → List Path → Prop
  | order {P Q : List Path} (perm : P.Perm Q) : Respelled fs P Q
  | again {p : Path} {P : List Path} (listed : p ∈ P) : Respelled fs P (p :: P)
  | spell {p q : Path} {P : List Path} {place : Place} (file : fs.isFile p = true)
      (own : fs.canonical? p = .ok place) (same : fs.canonical? q = .ok place) :
      Respelled fs (p :: P) (q :: P)
  | trans {P Q R : List Path} (first : Respelled fs P Q) (rest : Respelled fs Q R) : Respelled fs P R

/-- Paths with one canonical form lead to one entry. -/
theorem entry?_congr (own : fs.canonical? p = .ok place) (same : fs.canonical? q = .ok place) :
    fs.entry? q = fs.entry? p := by
  rw [FileSystem.entry?, FileSystem.entry?, (canonical?_ok.mp own).1, (canonical?_ok.mp same).1]

theorem isDirectory_of_isFile (file : fs.isFile p = true) : fs.isDirectory p = false := by
  unfold isFile at file
  unfold isDirectory
  split at file
  · rename_i found
    rw [found]
  · cases file

theorem Meets.isFile (meets : fs.Meets p q) (file : fs.isFile p = true) : fs.isFile q = true := by
  obtain rfl | ⟨-, place, own, same⟩ := meets
  · exact file
  · rwa [FileSystem.isFile, entry?_congr own same]

theorem Meets.symm (meets : fs.Meets p q) : fs.Meets q p := by
  have file := meets.isFile
  obtain rfl | ⟨here, place, own, same⟩ := meets
  · exact .inl rfl
  · exact .inr ⟨file here, place, same, own⟩

theorem Meets.trans (meets : fs.Meets p q) (meets' : fs.Meets q r) : fs.Meets p r := by
  obtain rfl | ⟨file, place, own, same⟩ := meets
  · exact meets'
  · obtain rfl | ⟨-, place', own', same'⟩ := meets'
    · exact .inr ⟨file, place, own, same⟩
    · obtain rfl := Except.ok.inj (same.symm.trans own')
      exact .inr ⟨file, place, own, same'⟩

/-- Each argument is met by one of the others, and the other way round. -/
theorem Respelled.meets (respelled : fs.Respelled P Q) :
    (∀ p ∈ P, ∃ q ∈ Q, fs.Meets p q) ∧ ∀ q ∈ Q, ∃ p ∈ P, fs.Meets p q := by
  induction respelled with
  | order perm =>
    exact ⟨fun p listed => ⟨p, perm.mem_iff.mp listed, .inl rfl⟩,
      fun q listed => ⟨q, perm.mem_iff.mpr listed, .inl rfl⟩⟩
  | @again p P listed =>
    refine ⟨fun q among => ⟨q, List.mem_cons_of_mem _ among, .inl rfl⟩, fun q among => ?_⟩
    rcases List.mem_cons.mp among with rfl | among
    · exact ⟨q, listed, .inl rfl⟩
    · exact ⟨q, among, .inl rfl⟩
  | @spell p q P place file own same =>
    have meets : fs.Meets p q := .inr ⟨file, place, own, same⟩
    constructor
    · intro r among
      rcases List.mem_cons.mp among with rfl | among
      · exact ⟨q, List.mem_cons_self, meets⟩
      · exact ⟨r, List.mem_cons_of_mem _ among, .inl rfl⟩
    · intro r among
      rcases List.mem_cons.mp among with rfl | among
      · exact ⟨p, List.mem_cons_self, meets⟩
      · exact ⟨r, List.mem_cons_of_mem _ among, .inl rfl⟩
  | trans _ _ ih ih' =>
    constructor
    · intro p among
      obtain ⟨q, among, meets⟩ := ih.1 p among
      obtain ⟨r, among, meets'⟩ := ih'.1 q among
      exact ⟨r, among, meets.trans meets'⟩
    · intro r among
      obtain ⟨q, among, meets'⟩ := ih'.2 r among
      obtain ⟨p, among, meets⟩ := ih.2 q among
      exact ⟨p, among, meets.trans meets'⟩

/-- A path that meets an argument may be put before all. -/
theorem Meets.respelled (meets : fs.Meets p q) (listed : p ∈ P) : fs.Respelled P (q :: P) := by
  obtain rfl | ⟨file, place, own, same⟩ := meets
  · exact .again listed
  · exact .trans (.again listed) (.spell file own same)

/-- Whether a path leads to a file or a directory. -/
def IsThere (fs : FileSystem) (p : Path) : Prop := fs.isFile p = true ∨ fs.isDirectory p = true

theorem Meets.isThere (meets : fs.Meets p q) (there : fs.IsThere p) : fs.IsThere q := by
  have file := meets.isFile
  obtain rfl | ⟨here, -⟩ := meets
  · exact there
  · exact .inl (file here)

theorem Respelled.isThere (respelled : fs.Respelled P Q) (there : ∀ p ∈ P, fs.IsThere p) :
    ∀ q ∈ Q, fs.IsThere q := by
  intro q listed
  obtain ⟨p, among, meets⟩ := respelled.meets.2 q listed
  exact meets.isThere (there p among)

end FileSystem

namespace Workshop

open SourceFile

variable {ε σ : Type} {k : Workshop ε σ} {fs : FileSystem} {P Q : List Path} {p q : Path}
variable {f g : SourceFile} {files : List SourceFile}

/-- The files that a path stands for. -/
def filesAt (k : Workshop ε σ) (fs : FileSystem) (p : Path) : List SourceFile :=
  if fs.isDirectory p then k.sourcesIn fs p else [fs.sourceFile k.indexer.anchor p]

theorem sourcesAt_eq (there : fs.IsThere p) : k.sourcesAt fs p = .ok (k.filesAt fs p) := by
  unfold sourcesAt filesAt
  split
  · rfl
  · rename_i other
    rw [if_pos (there.resolve_right other)]

/-- What is collected from paths that lead somewhere. -/
theorem collect_eq (there : ∀ p ∈ P, fs.IsThere p) :
    k.collect fs P = .ok (distinct (sort (P.flatMap (k.filesAt fs)))) := by
  have found : P.mapM (k.sourcesAt fs) = .ok (P.map (k.filesAt fs)) := by
    induction P with
    | nil => rfl
    | cons p P ih =>
      obtain ⟨first, rest⟩ := List.forall_mem_cons.mp there
      rw [List.mapM_cons, sourcesAt_eq first, ih rest]
      rfl
  rw [collect, found, List.flatMap_def]
  rfl

/-- Paths to one file give it one name. -/
theorem map_name_filesAt (meets : fs.Meets p q) :
    (k.filesAt fs q).map (·.name) = (k.filesAt fs p).map (·.name) := by
  have file := meets.isFile
  obtain rfl | ⟨here, place, own, same⟩ := meets
  · rfl
  · have names : fs.sourceName k.indexer.anchor q = fs.sourceName k.indexer.anchor p := by
      simp only [FileSystem.sourceName, FileSystem.canonicalOrSelf, own, same]
    simp only [filesAt, FileSystem.isDirectory_of_isFile here,
      FileSystem.isDirectory_of_isFile (file here), Bool.false_eq_true, if_false, List.map_cons,
      FileSystem.sourceFile, names, List.map_nil]

theorem mem_names (meets : fs.Meets p q) {name : String}
    (listed : ∃ f ∈ k.filesAt fs p, f.name = name) : ∃ f ∈ k.filesAt fs q, f.name = name := by
  have named : name ∈ (k.filesAt fs p).map (·.name) := List.mem_map.mpr listed
  rw [← map_name_filesAt meets] at named
  exact List.mem_map.mp named

/-- A file that comes first of its name among those of some path that meets an argument. -/
def Reaches (k : Workshop ε σ) (fs : FileSystem) (P : List Path) (f : SourceFile) : Prop :=
  ∃ p ∈ P, ∃ q, fs.Meets p q ∧ first? f.name (k.filesAt fs q) = some f

/-- What is left of the files of arguments comes from one of them. -/
theorem exists_first (listed : f ∈ distinct (sort (P.flatMap (k.filesAt fs)))) :
    ∃ p ∈ P, first? f.name (k.filesAt fs p) = some f := by
  have found := mem_distinct_sort.mp listed
  rw [first?, List.find?_flatMap] at found
  exact List.exists_of_findSome?_eq_some found

/-- What is collected from other arguments for the same files is reached. -/
theorem reaches_of_collected (respelled : fs.Respelled P Q)
    (listed : f ∈ distinct (sort (Q.flatMap (k.filesAt fs)))) : k.Reaches fs P f := by
  obtain ⟨q, among, found⟩ := exists_first listed
  obtain ⟨p, among, meets⟩ := respelled.meets.2 q among
  exact ⟨p, among, q, meets, found⟩

/-- What is reached is collected from some other arguments for the same files. -/
theorem Reaches.exists_collected (reaches : k.Reaches fs P f) :
    ∃ Q, fs.Respelled P Q ∧ f ∈ distinct (sort (Q.flatMap (k.filesAt fs))) := by
  obtain ⟨p, listed, q, meets, found⟩ := reaches
  refine ⟨q :: P, meets.respelled listed, mem_distinct_sort.mpr ?_⟩
  rw [first?, List.find?_flatMap, List.findSome?_cons, ← first?, found]

theorem name_mem_iff {name : String} :
    (∃ f ∈ distinct (sort (P.flatMap (k.filesAt fs))), f.name = name) ↔
      ∃ p ∈ P, ∃ f ∈ k.filesAt fs p, f.name = name := by
  constructor
  · rintro ⟨f, listed, rfl⟩
    obtain ⟨p, among, found⟩ := exists_first listed
    exact ⟨p, among, f, (first?_some found).1, rfl⟩
  · rintro ⟨p, among, f, listed, rfl⟩
    have there : (first? f.name (P.flatMap (k.filesAt fs))).isSome :=
      List.find?_isSome.mpr
        ⟨f, List.mem_flatMap.mpr ⟨p, among, listed⟩, decide_eq_true rfl⟩
    obtain ⟨g, found⟩ := Option.isSome_iff_exists.mp there
    have named := (first?_some found).2
    exact ⟨g, mem_distinct_sort.mpr (named.symm ▸ found), named⟩

/-- Other arguments for the same files give the same names in the same order. -/
theorem map_name_collected (respelled : fs.Respelled P Q) :
    (distinct (sort (Q.flatMap (k.filesAt fs)))).map (·.name) =
      (distinct (sort (P.flatMap (k.filesAt fs)))).map (·.name) := by
  have ascending (R : List Path) :
      ((distinct (sort (R.flatMap (k.filesAt fs)))).map (·.name)).Pairwise fun a b => a < b :=
    List.pairwise_map.mpr (distinct_spec (pairwise_sort _)).1
  have nodup (R : List Path) :
      ((distinct (sort (R.flatMap (k.filesAt fs)))).map (·.name)).Nodup := by
    refine (ascending R).imp fun {a b} before => ?_
    rintro rfl
    exact String.lt_irrefl _ before
  refine List.Perm.eq_of_pairwise (fun a b _ _ before after => ?_) (ascending Q) (ascending P) ?_
  · exact absurd (String.lt_trans before after) (String.lt_irrefl _)
  · refine (List.perm_ext_iff_of_nodup (nodup Q) (nodup P)).mpr fun name => ?_
    rw [List.mem_map, List.mem_map, name_mem_iff, name_mem_iff]
    constructor
    · rintro ⟨q, among, there⟩
      obtain ⟨p, among, meets⟩ := respelled.meets.2 q among
      exact ⟨p, among, mem_names meets.symm there⟩
    · rintro ⟨p, among, there⟩
      obtain ⟨q, among, meets⟩ := respelled.meets.1 p among
      exact ⟨q, among, mem_names meets there⟩

/-- Below a canonical path a file is named by where it is. -/
theorem name_of_mem_filesAt (canonical : fs.canonicalOrSelf k.indexer.anchor = k.indexer.anchor)
    (listed : f ∈ k.filesAt fs p) : f.name = fs.sourceName k.indexer.anchor f.path := by
  unfold filesAt at listed
  split at listed
  · rw [sourcesIn, Scanner.scan, sort, List.mem_mergeSort, Scanner.named, canonical] at listed
    obtain ⟨x, -, rfl⟩ := List.mem_map.mp listed
    rfl
  · obtain rfl := List.mem_singleton.mp listed
    rfl

/-- A file that one of the paths stands for. -/
def Stands (k : Workshop ε σ) (fs : FileSystem) (P : List Path) (f : SourceFile) : Prop :=
  ∃ p ∈ P, f ∈ k.filesAt fs p

theorem stands_of_collected (listed : f ∈ distinct (sort (P.flatMap (k.filesAt fs)))) :
    k.Stands fs P f := by
  obtain ⟨p, among, found⟩ := exists_first listed
  exact ⟨p, among, (first?_some found).1⟩

/-- Below a canonical path files at one place have one name. -/
theorem name_eq_of_canonical (canonical : fs.canonicalOrSelf k.indexer.anchor = k.indexer.anchor)
    (stands : k.Stands fs P f) (stands' : k.Stands fs P g)
    (same : fs.canonicalOrSelf f.path = fs.canonicalOrSelf g.path) : f.name = g.name := by
  obtain ⟨p, -, listed⟩ := stands
  obtain ⟨q, -, listed'⟩ := stands'
  rw [name_of_mem_filesAt canonical listed, name_of_mem_filesAt canonical listed',
    FileSystem.sourceName, FileSystem.sourceName, same]

/-- No place is collected twice. -/
theorem pairwise_canonical_collected
    (canonical : fs.canonicalOrSelf k.indexer.anchor = k.indexer.anchor) :
    (distinct (sort (P.flatMap (k.filesAt fs)))).Pairwise fun f g =>
      fs.canonicalOrSelf f.path ≠ fs.canonicalOrSelf g.path := by
  refine (distinct_spec (pairwise_sort _)).1.imp_of_mem fun {f g} listed listed' before same => ?_
  rw [name_eq_of_canonical canonical (stands_of_collected listed) (stands_of_collected listed') same]
    at before
  exact String.lt_irrefl _ before

end Workshop

end CodeSearch
