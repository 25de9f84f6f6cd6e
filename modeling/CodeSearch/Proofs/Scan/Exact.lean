import Mathlib.Data.List.Nodup
import CodeSearch.Proofs.Files.Below
import CodeSearch.Proofs.Indexing.Collect
import CodeSearch.Scan.Walk

/-! # What a scan finds

Where no rules are, a walk passes over what is hidden or has an ignored name, and it goes into no
such directory. It comes to the files that it would find if it went everywhere and tested each file
by the names from the root on. The names on the way to the root are not tested.
-/

namespace CodeSearch

namespace Scanner

variable {fs : FileSystem} {s : Scanner} {root p : Path} {base above names : List String}
variable {name : String} {content : Bytes} {e : Entry} {fuel : Nat}

/-- No directory has a file with rules. -/
def Unruled (fs : FileSystem) : Prop :=
  ∀ place, fs.get? place = some .directory →
    ∀ file ∈ ruleFiles, fs.isFile (.ofPlace (place ++ file)) = false

/-- No name is hidden or ignored. -/
def Clear (names : List String) : Prop :=
  ∀ name ∈ names, isHidden name = false ∧ isIgnoredName name = false

theorem clear_nil : Clear [] := fun _ listed => nomatch listed

theorem clear_append : Clear (above ++ names) ↔ Clear above ∧ Clear names := List.forall_mem_append

/-- What a walk comes to at a name of a directory. -/
def visits (fs : FileSystem) (root : Path) (fuel : Nat) (place : Place) (p : Path) :
    String × Entry → List (Path × Bytes)
  | (name, .file content) =>
    if skips fs root (place ++ [name]) (p.join name) name false then []
    else [(p.join name, content)]
  | (name, .directory) =>
    if skips fs root (place ++ [name]) (p.join name) name true then []
    else walk fs root fuel (place ++ [name]) (p.join name)
  | (_, .link _) => []

theorem walk_succ (fs : FileSystem) (root : Path) (fuel : Nat) (place : Place) (p : Path) :
    walk fs root (fuel + 1) place p =
      (fs.children place).flatMap (visits fs root fuel place p) := by
  rw [walk]
  congr 1
  funext ⟨name, e⟩
  cases e <;> rfl

/-- Of a path below the root only the names from the root on count. -/
theorem isIgnoredScope_below (root : Path) (proper : FileSystem.Proper names) :
    isIgnoredScope root (root.below names) = names.any isIgnoredName := by
  obtain ⟨r, added, steps⟩ := Path.strip?_of_steps (Path.steps_below proper)
  rw [isIgnoredScope, added]
  dsimp only
  rw [steps, List.any_map]
  rfl

/-- Whether all names of a path below the root are clear, tested as a whole. -/
theorem clear_iff (root : Path) (proper : FileSystem.Proper names) : Clear names ↔
    (isIgnoredScope root (root.below names) || names.any isHidden) = false := by
  rw [isIgnoredScope_below root proper, Bool.or_eq_false_iff, List.any_eq_false,
    List.any_eq_false, ← forall₂_and]
  simp [Clear, and_comm]

theorem rulesAt_eq_nil (unruled : Unruled fs) {place file : Place}
    (directory : fs.get? place = some .directory) (listed : file ∈ ruleFiles) :
    rulesAt fs place file = [] := by
  have none := unruled place directory file listed
  unfold rulesAt
  split
  · rename_i bytes read
    unfold FileSystem.isFile at none
    unfold FileSystem.read at read
    cases found : fs.entry? (.ofPlace (place ++ file)) with
    | error err => simp [found, Except.bind] at read
    | ok e => cases e <;> simp [found, Except.bind] at read none
  · rfl

/-- Without rules nothing is said about a place. -/
theorem verdict?_eq_none (sound : fs.Sound) (unruled : Unruled fs) {place : Place}
    (there : fs.get? place = some e) (isDirectory : Bool) :
    verdict? fs place isDirectory = none := by
  refine List.findSome?_eq_none_iff.mpr fun file listed => List.findSome?_eq_none_iff.mpr ?_
  rintro ⟨directory, rest⟩ cut
  obtain ⟨i, short, same⟩ := List.mem_map.mp cut
  obtain ⟨rfl, rfl⟩ := Prod.mk.inj same
  have more : place.drop i ≠ [] := by
    rw [Ne, List.drop_eq_nil_iff, Nat.not_le]
    simpa using short
  rw [← List.take_append_drop i place] at there
  dsimp only
  rw [rulesAt_eq_nil unruled (sound.directory_of_below more there) listed]
  rfl

/-- The names that lead on to what is there can be pieces of a path. -/
theorem proper_of_get? (named : fs.Named) (there : fs.get? (base ++ names) = some e) :
    FileSystem.Proper names :=
  fun s listed => (named.of_get? there).1 s (List.mem_append_right base listed)

section

variable (sound : fs.Sound) (named : fs.Named) (unruled : Unruled fs)

include sound named unruled

/-- Below a way that is clear a name alone decides. -/
theorem skips_iff (root : Path) (there : fs.get? (base ++ above ++ [name]) = some e)
    (clear : Clear above) (isDirectory : Bool) :
    skips fs root (base ++ above ++ [name]) (root.below (above ++ [name])) name isDirectory = true ↔
      ¬Clear [name] := by
  rw [List.append_assoc] at there
  have proper := proper_of_get? named there
  have before : above.any isIgnoredName = false :=
    List.any_eq_false.mpr fun s listed => by simp [(clear s listed).2]
  rw [skips, isIgnoredScope_below root proper, List.append_assoc,
    verdict?_eq_none sound unruled there, List.any_append, before, Clear, List.forall_mem_singleton]
  cases isHidden name <;> cases ignored : isIgnoredName name <;> simp [ignored]

/-- A walk comes to a file whose name is clear, and it goes on from a directory whose name is. -/
theorem mem_visits (there : fs.get? (base ++ above ++ [name]) = some e) (clear : Clear above) :
    (p, content) ∈ visits fs root fuel (base ++ above) (root.below above) (name, e) ↔
      Clear [name] ∧
        (e = .file content ∧ p = root.below (above ++ [name]) ∨
          e = .directory ∧ (p, content) ∈
            walk fs root fuel (base ++ (above ++ [name])) (root.below (above ++ [name]))) := by
  have test := skips_iff sound named unruled root there clear
  cases e with
  | link => simp [visits]
  | file content' =>
    rw [visits, Path.below_concat]
    by_cases passed : Clear [name]
    · rw [if_neg fun skipped => (test false).mp skipped passed]
      simp [passed, and_comm, eq_comm]
    · rw [if_pos ((test false).mpr passed)]
      simp [passed]
  | directory =>
    rw [visits, Path.below_concat, List.append_assoc] at *
    by_cases passed : Clear [name]
    · rw [if_neg fun skipped => (test true).mp skipped passed]
      simp [passed]
    · rw [if_pos ((test true).mpr passed)]
      simp [passed]

variable (keyed : fs.Keyed)

include keyed

/-- A walk with enough steps comes to the files below a directory that all names on the way are
clear for. The induction is on the steps that are left; the names on the way down carry it. -/
theorem mem_walk_iff (clear : Clear above) :
    (p, content) ∈ walk fs root fuel (base ++ above) (root.below above) ↔
      ∃ names, names ≠ [] ∧ names.length ≤ fuel ∧ Clear names ∧
        fs.get? (base ++ above ++ names) = some (.file content) ∧
        p = root.below (above ++ names) := by
  induction fuel generalizing above with
  | zero =>
    constructor
    · intro listed
      cases listed
    · rintro ⟨names, filled, short, -⟩
      exact absurd (List.length_eq_zero_iff.mp (Nat.le_zero.mp short)) filled
  | succ fuel ih =>
    rw [walk_succ, List.mem_flatMap]
    constructor
    · rintro ⟨⟨name, e⟩, child, visited⟩
      have there := (FileSystem.mem_children_iff keyed).mp child
      obtain ⟨passed, ⟨rfl, rfl⟩ | ⟨rfl, deeper⟩⟩ :=
        (mem_visits sound named unruled there clear).mp visited
      · exact ⟨[name], by simp, Nat.succ_le_succ (Nat.zero_le _), passed, there, rfl⟩
      · obtain ⟨names, -, short, rest, found, rfl⟩ :=
          (ih (clear_append.mpr ⟨clear, passed⟩)).mp deeper
        refine ⟨name :: names, by simp, Nat.succ_le_succ short,
          clear_append.mpr ⟨passed, rest⟩, ?_, ?_⟩
        · simpa using found
        · simp
    · rintro ⟨names, filled, short, passed, found, rfl⟩
      obtain ⟨name, names, rfl⟩ := List.exists_cons_of_ne_nil filled
      obtain ⟨first, rest⟩ := clear_append.mp (List.singleton_append (l := names) ▸ passed)
      by_cases last : names = []
      · subst last
        exact ⟨(name, .file content), (FileSystem.mem_children_iff keyed).mpr found,
          (mem_visits sound named unruled found clear).mpr ⟨first, .inl ⟨rfl, rfl⟩⟩⟩
      · have more : base ++ above ++ name :: names = base ++ above ++ [name] ++ names := by simp
        rw [more] at found
        have there := sound.directory_of_below last found
        refine ⟨(name, .directory), (FileSystem.mem_children_iff keyed).mpr there,
          (mem_visits sound named unruled there clear).mpr ⟨first, .inr ⟨rfl, ?_⟩⟩⟩
        refine (ih (clear_append.mpr ⟨clear, first⟩)).mpr
          ⟨names, last, Nat.le_of_succ_le_succ short, rest, ?_, ?_⟩
        · simpa using found
        · simp

/-- What is visited at a name is some names below it. -/
theorem exists_of_mem_visits (there : fs.get? (base ++ above ++ [name]) = some e)
    (clear : Clear above)
    (visited : (p, content) ∈ visits fs root fuel (base ++ above) (root.below above) (name, e)) :
    ∃ names, FileSystem.Proper (above ++ name :: names) ∧
      p = root.below (above ++ name :: names) := by
  obtain ⟨passed, ⟨rfl, rfl⟩ | ⟨rfl, deeper⟩⟩ :=
    (mem_visits sound named unruled there clear).mp visited
  · rw [List.append_assoc] at there
    exact ⟨[], proper_of_get? named there, rfl⟩
  · obtain ⟨names, -, -, -, found, rfl⟩ :=
      (mem_walk_iff sound named unruled keyed (clear_append.mpr ⟨clear, passed⟩)).mp deeper
    have same : above ++ [name] ++ names = above ++ name :: names := by simp
    rw [List.append_assoc, same] at found
    exact ⟨names, proper_of_get? named found, by rw [same]⟩

/-- A walk comes to no path twice. -/
theorem nodup_walk (clear : Clear above) :
    ((walk fs root fuel (base ++ above) (root.below above)).map (·.1)).Nodup := by
  induction fuel generalizing above with
  | zero => exact List.nodup_nil
  | succ fuel ih =>
    rw [walk_succ, List.map_flatMap]
    have names := FileSystem.nodup_children keyed (base ++ above)
    refine List.nodup_flatMap.mpr ⟨?_, (List.pairwise_map.mp names).imp_of_mem ?_⟩
    · rintro ⟨name, e⟩ child
      have there := (FileSystem.mem_children_iff keyed).mp child
      have test := skips_iff sound named unruled root there clear
      cases e with
      | link => exact List.nodup_nil
      | file content =>
        rw [visits]
        split
        · exact List.nodup_nil
        · exact List.nodup_singleton _
      | directory =>
        rw [visits, Path.below_concat, List.append_assoc] at *
        split
        · exact List.nodup_nil
        · rename_i goes
          refine ih (clear_append.mpr ⟨clear, ?_⟩)
          by_contra skipped
          exact goes ((test true).mpr skipped)
    · rintro ⟨name, e⟩ ⟨name', e'⟩ child child' apart p listed listed'
      obtain ⟨⟨p, content⟩, visited, rfl⟩ := List.mem_map.mp listed
      obtain ⟨⟨p', content'⟩, visited', same⟩ := List.mem_map.mp listed'
      obtain ⟨names, proper, rfl⟩ := exists_of_mem_visits sound named unruled keyed
        ((FileSystem.mem_children_iff keyed).mp child) clear visited
      obtain ⟨names', proper', rfl⟩ := exists_of_mem_visits sound named unruled keyed
        ((FileSystem.mem_children_iff keyed).mp child') clear visited'
      have ways := Path.below_injective proper' proper same
      exact apart (List.cons.inj (List.append_cancel_left ways)).1.symm

/-- A walk from the root has enough steps for all that is below it. -/
theorem mem_walk_root (directory : fs.get? base = some .directory) :
    (p, content) ∈ walk fs root (fs.entries.length + 1) base root ↔
      ∃ names, fs.get? (base ++ names) = some (.file content) ∧ Clear names ∧
        p = root.below names := by
  have way : (p, content) ∈ walk fs root (fs.entries.length + 1) (base ++ []) (root.below []) ↔ _ :=
    mem_walk_iff sound named unruled keyed clear_nil
  rw [List.append_nil] at way
  refine way.trans ⟨?_, ?_⟩
  · rintro ⟨names, -, -, clear, there, rfl⟩
    exact ⟨names, there, clear, rfl⟩
  · rintro ⟨names, there, clear, rfl⟩
    have depth := sound.length_le there
    rw [List.length_append] at depth
    refine ⟨names, ?_, by omega, clear, there, rfl⟩
    rintro rfl
    rw [List.append_nil, directory] at there
    cases there

/-- What a scan comes to are the files that the names below the root are clear for. -/
theorem mem_visited_iff (walks : s.readsInput = false) :
    (p, content) ∈ s.visited fs ↔ ∃ base names, fs.canonical? s.root = .ok base ∧
      fs.get? (base ++ names) = some (.file content) ∧ Clear names ∧ p = s.root.below names := by
  rw [visited, walks, if_neg Bool.false_ne_true]
  cases own : fs.canonical? s.root with
  | error err => simp
  | ok base =>
    -- below what is no directory there is nothing
    have alone (names : List String) (there : fs.get? (base ++ names) = some (.file content))
        (other : fs.get? base ≠ some .directory) : names = [] := by
      by_contra more
      exact other (sound.directory_of_below more there)
    dsimp only
    split
    · rename_i content' file
      rw [List.mem_singleton, Prod.mk.injEq]
      constructor
      · rintro ⟨rfl, rfl⟩
        exact ⟨base, [], rfl, by rwa [List.append_nil], clear_nil, rfl⟩
      · rintro ⟨_, names, ⟨⟩, there, -, rfl⟩
        obtain rfl := alone names there (by simp [file])
        rw [List.append_nil, file] at there
        cases there
        exact ⟨rfl, rfl⟩
    · rename_i directory
      rw [mem_walk_root sound named unruled keyed directory]
      constructor
      · rintro ⟨names, there⟩
        exact ⟨base, names, rfl, there⟩
      · rintro ⟨_, names, ⟨⟩, there⟩
        exact ⟨names, there⟩
    · rename_i noFile noDirectory
      constructor
      · intro listed
        cases listed
      · rintro ⟨_, names, ⟨⟩, there, -, -⟩
        obtain rfl := alone names there noDirectory
        rw [List.append_nil] at there
        exact absurd there (noFile content)

theorem nodup_visited (s : Scanner) : ((s.visited fs).map (·.1)).Nodup := by
  unfold visited
  split
  · exact List.nodup_nil
  · split
    · exact List.nodup_nil
    · rename_i base own
      split
      · exact List.nodup_singleton _
      · have once : ((walk fs s.root (fs.entries.length + 1) (base ++ []) (s.root.below [])).map
            (·.1)).Nodup := nodup_walk sound named unruled keyed clear_nil
        rwa [List.append_nil] at once
      · exact List.nodup_nil

end

/-- The paths to the files below a place, each tested by itself. -/
def tested (fs : FileSystem) (s : Scanner) (place : Place) : List (Path × Bytes) :=
  (fs.below place).filterMap fun
    | (names, .file content) =>
      if isIgnoredScope s.root (s.root.below names) || names.any isHidden then none
      else some (s.root.below names, content)
    | _ => none

/-- A file some names below the root, that are all clear. The file is of a known language and not
too long. -/
structure Eligible (fs : FileSystem) (s : Scanner) (base : Place) (names : List String)
    (content : Bytes) : Prop where
  root : fs.canonical? s.root = .ok base
  file : fs.get? (base ++ names) = some (.file content)
  clear : Clear names
  known : (Language.ofPath? (s.root.below names)).isSome = true
  short : content.length ≤ s.maxBytes

/-- What a scan promises. -/
structure Exact (fs : FileSystem) (s : Scanner) : Prop where
  ascending : (s.scan fs).Pairwise fun f g => f.name ≤ g.name
  once : ((s.scan fs).map (·.path)).Nodup
  found : ∀ f, f ∈ s.scan fs ↔ ∃ base names content, Eligible fs s base names content ∧
    fs.sourceFile s.anchor (s.root.below names) = f
  /-- To pass over directories comes to the same as to test each file by its own path. -/
  pruned : ∀ base, fs.canonical? s.root = .ok base → fs.get? base = some .directory →
    ∀ x, x ∈ s.visited fs ↔ x ∈ s.tested fs base
  /-- The names of the root are not tested. -/
  scope : ∀ names, FileSystem.Proper names →
    isIgnoredScope s.root (s.root.below names) = names.any isIgnoredName

section

variable (sound : fs.Sound) (named : fs.Named) (unruled : Unruled fs) (keyed : fs.Keyed)

include named keyed

theorem mem_tested_iff (directory : fs.get? base = some .directory) :
    (p, content) ∈ s.tested fs base ↔ ∃ names, fs.get? (base ++ names) = some (.file content) ∧
      Clear names ∧ p = s.root.below names := by
  have test {names : List String} {e : Entry} (there : fs.get? (base ++ names) = some e) :=
    clear_iff s.root (proper_of_get? named there)
  rw [tested, List.mem_filterMap]
  constructor
  · rintro ⟨⟨names, e⟩, listed, passes⟩
    obtain ⟨filled, listed⟩ := FileSystem.mem_below_iff.mp listed
    have there := (FileSystem.mem_entries_iff keyed (by simp [filled])).mp listed
    cases e with
    | file content' =>
      dsimp only at passes
      split at passes
      · cases passes
      · rename_i untouched
        obtain ⟨rfl, rfl⟩ := Prod.mk.inj (Option.some.inj passes)
        exact ⟨names, there, (test there).mpr (Bool.eq_false_iff.mpr untouched), rfl⟩
    | _ => cases passes
  · rintro ⟨names, there, clear, rfl⟩
    have filled : names ≠ [] := by
      rintro rfl
      rw [List.append_nil, directory] at there
      cases there
    refine ⟨(names, .file content), FileSystem.mem_below_iff.mpr
      ⟨filled, (FileSystem.mem_entries_iff keyed (by simp [filled])).mpr there⟩, ?_⟩
    dsimp only
    rw [(test there).mp clear]
    rfl

include sound unruled

theorem mem_scan_iff (walks : s.readsInput = false) (f : SourceFile) :
    f ∈ s.scan fs ↔ ∃ base names content, Eligible fs s base names content ∧
      fs.sourceFile s.anchor (s.root.below names) = f := by
  rw [scan, SourceFile.sort, List.mem_mergeSort, List.mem_map]
  constructor
  · rintro ⟨⟨p, content⟩, listed, rfl⟩
    obtain ⟨visited, passes⟩ := List.mem_filter.mp listed
    obtain ⟨base, names, own, file, clear, rfl⟩ :=
      (mem_visited_iff sound named unruled keyed walks).mp visited
    obtain ⟨known, short⟩ := Bool.and_eq_true_iff.mp passes
    exact ⟨base, names, content, ⟨own, file, clear, known, of_decide_eq_true short⟩, rfl⟩
  · rintro ⟨base, names, content, eligible, rfl⟩
    have visited : (s.root.below names, content) ∈ s.visited fs :=
      (mem_visited_iff sound named unruled keyed walks).mpr
        ⟨base, names, eligible.root, eligible.file, eligible.clear, rfl⟩
    refine ⟨_, List.mem_filter.mpr ⟨visited, ?_⟩, rfl⟩
    exact Bool.and_eq_true_iff.mpr ⟨eligible.known, decide_eq_true eligible.short⟩

theorem nodup_scan (s : Scanner) : ((s.scan fs).map (·.path)).Nodup := by
  have listed := nodup_visited sound named unruled keyed s
  refine ((List.mergeSort_perm ..).map SourceFile.path).nodup_iff.mpr ?_
  rw [List.map_map]
  exact listed.sublist (List.filter_sublist.map _)

end

/-- Where no rules are, a scan finds the eligible files and nothing else, each of them once and in
the order of their names. For the name of the standard input it finds nothing. -/
theorem scan_exact (fs : FileSystem) (s : Scanner) (sound : fs.Sound) (named : fs.Named)
    (keyed : fs.Keyed) (unruled : Unruled fs) :
    (s.readsInput = true → s.scan fs = []) ∧ (s.readsInput = false → s.Exact fs) := by
  constructor
  · intro reads
    have none : s.visited fs = [] := if_pos reads
    rw [scan, none]
    exact List.mergeSort_nil
  · intro walks
    exact {
      ascending := SourceFile.pairwise_sort _
      once := nodup_scan sound named unruled keyed s
      found := mem_scan_iff sound named unruled keyed walks
      pruned := by
        rintro base own directory ⟨p, content⟩
        rw [mem_visited_iff sound named unruled keyed walks, mem_tested_iff named keyed directory]
        constructor
        · rintro ⟨base', names, own', there⟩
          obtain rfl := Except.ok.inj (own.symm.trans own')
          exact ⟨names, there⟩
        · rintro ⟨names, there⟩
          exact ⟨base, names, own, there⟩
      scope := fun names proper => isIgnoredScope_below s.root proper }

/-- A hidden directory of a build, with a source, a link to it, one that is too long, and others in
directories that are passed over or not. -/
def scanned : FileSystem where
  entries :=
    [(["build"], .directory), (["build", ".x"], .directory), (["build", ".x", "z.H"], .file [1]),
      (["build", ".x", "long.c"], .file [1, 2]), (["build", ".x", "link.c"], .link (.ofText "z.H")),
      (["build", ".x", "sub"], .directory), (["build", ".x", "sub", "a.cc"], .file []),
      (["build", ".x", "Vendor"], .directory), (["build", ".x", "Vendor", "v.c"], .file []),
      (["build", ".x", ".git"], .directory), (["build", ".x", ".git", "g.c"], .file [])]
  here := ["build"]

/-- The root is spelled with a detour, and files are named below the directory that it is in. -/
theorem scan_exact_scanned :
    let s : Scanner := ⟨.ofText ".x/../.x/", .ofPlace ["build"], 1⟩
    scanned.Sound ∧ scanned.Named ∧ scanned.Keyed ∧ Unruled scanned ∧ s.readsInput = false ∧
      s.Exact scanned ∧
      (s.visited scanned).map (·.1.toText) =
        [".x/../.x/z.H", ".x/../.x/long.c", ".x/../.x/sub/a.cc"] ∧
      ⟨.ofText ".x/../.x/sub/a.cc", ".x/sub/a.cc"⟩ ∈ s.scan scanned := by
  intro s
  have sound : scanned.Sound := FileSystem.sound_of_entries (by decide) (by decide)
  have named : scanned.Named := by
    unfold FileSystem.Named FileSystem.Proper
    decide +kernel
  have keyed : scanned.Keyed := by
    unfold FileSystem.Keyed
    decide
  have unruled : Unruled scanned := by
    have bare : ∀ entry ∈ ([], .directory) :: scanned.entries, entry.2 = .directory →
        ∀ file ∈ ruleFiles, scanned.isFile (.ofPlace (entry.1 ++ file)) = false := by
      decide +kernel
    intro place directory
    by_cases root : place = []
    · exact bare (place, .directory) (by simp [root]) rfl
    · rw [FileSystem.get?, if_neg root] at directory
      have listed := FileSystem.mem_of_find? directory
      exact bare (place, .directory) (List.mem_cons_of_mem _ listed) rfl
  have walks : s.readsInput = false := by decide
  have exact_ : s.Exact scanned := (scan_exact scanned s sound named keyed unruled).2 walks
  refine ⟨sound, named, keyed, unruled, walks, exact_, by decide +kernel, ?_⟩
  refine (exact_.found _).mpr ⟨["build", ".x"], ["sub", "a.cc"], [], ?_, by decide +kernel⟩
  exact {
    root := by decide +kernel
    file := by decide
    clear := by
      unfold Clear
      decide
    known := by decide +kernel
    short := by decide }

end Scanner

end CodeSearch
