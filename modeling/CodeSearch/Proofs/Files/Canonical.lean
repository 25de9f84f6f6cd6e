import CodeSearch.Indexing.Run
import CodeSearch.Proofs.Files.Detour
import CodeSearch.Proofs.Files.Directories
import CodeSearch.Proofs.Files.Parts

/-! # Canonical paths

The canonical path of a place leads to that place, if it can be followed at all. So to make a path
canonical twice is to do it once, and an indexer names files below a canonical path.
-/

namespace CodeSearch

namespace FileSystem

variable {fs : FileSystem} {follow : Bool} {n : Nat} {base r : Place} {ps names : List String}
variable {p : Path}

/-- All names of a place can be pieces of a path. -/
def Proper (place : Place) : Prop := ∀ s ∈ place, Path.step? s = some (.name s)

theorem Proper.dropLast (proper : Proper base) : Proper base.dropLast :=
  fun s listed => proper s ((List.dropLast_sublist _).subset listed)

theorem Proper.concat {piece s : String} (proper : Proper base)
    (step : Path.step? piece = some (.name s)) : Proper (base ++ [s]) := by
  obtain rfl := Path.step?_eq_name step
  intro t listed
  rcases List.mem_append.mp listed with before | last
  · exact proper t before
  · obtain rfl := List.mem_singleton.mp last
    exact step

theorem Proper.origin (proper : Proper base) (target : Path) : Proper (origin base target).1 := by
  unfold FileSystem.origin
  split
  · exact nofun
  · exact proper

/-- A path leads to a place with proper names. -/
theorem Leads.proper (leads : Leads fs follow n base ps r) (proper : Proper base) : Proper r := by
  induction leads with
  | nil => exact proper
  | idle _ _ ih => exact ih proper
  | up _ _ ih => exact ih proper.dropLast
  | down step _ _ _ ih => exact ih (proper.concat step)
  | jump _ _ _ _ ih => exact ih (proper.origin _)
  | stop step _ _ _ => exact proper.concat step

/-- Without links on the way names lead to themselves. -/
theorem eq_of_resolve_names (sound : fs.Sound) (proper : Proper names) {e : Entry}
    (there : fs.get? (base ++ names) = some e) (plain : ∀ t, e ≠ .link t)
    (found : resolve fs true n base names = .ok r) : r = base ++ names := by
  induction names generalizing base with
  | nil =>
    rw [List.append_nil]
    exact (Except.ok.inj (resolve_nil.symm.trans found)).symm
  | cons s names ih =>
    obtain ⟨first, rest⟩ := List.forall_mem_cons.mp proper
    have whole : base ++ s :: names = base ++ [s] ++ names := by simp
    rw [whole] at there ⊢
    rw [resolve_name first] at found
    split at found
    · cases found
    · rcases names with _ | ⟨next, names⟩
      · rw [List.append_nil] at there ⊢
        rw [there] at found
        cases e with
        | file _ => exact (Except.ok.inj found).symm
        | link t => exact absurd rfl (plain t)
        | directory => exact (Except.ok.inj (resolve_nil.symm.trans found)).symm
      · have up : fs.get? (base ++ [s]) = some .directory :=
          sound.directory_of_below (by simp) there
        rw [up] at found
        exact ih rest there found

theorem canonical?_ok {place : Place} : fs.canonical? p = .ok place ↔
    fs.locate true p = .ok place ∧ (fs.get? place).isSome := by
  unfold canonical?
  cases fs.locate true p with
  | error e => simp [Except.bind]
  | ok q =>
    simp only [Except.bind]
    cases there : fs.get? q with
    | none =>
      simp only [reduceCtorEq, false_iff, not_and]
      rintro same
      obtain rfl := Except.ok.inj same
      simp [there]
    | some e =>
      constructor
      · intro same
        obtain rfl := Except.ok.inj same
        exact ⟨rfl, by simp [there]⟩
      · exact And.left

/-- The canonical path of a place leads to no other place. -/
theorem eq_of_canonical_place (sound : fs.Sound) (proper : Proper fs.here) {place : Place}
    (own : fs.canonical? p = .ok place) (found : fs.canonical? (.ofPlace place) = .ok r) :
    r = place := by
  obtain ⟨located, there⟩ := canonical?_ok.mp own
  obtain ⟨e, there⟩ := Option.isSome_iff_exists.mp there
  have leads := leads_of_resolve (locate_ok.mp located).2
  have start := origin_directory sound.here p
  have plain : ∀ t, e ≠ .link t := by
    rintro t rfl
    exact leads.no_link sound start t there
  have resolved := (locate_ok.mp (canonical?_ok.mp found).1).2
  cases place with
  | nil =>
    have idle : Path.step? "" = none := rfl
    have away : origin fs.here (.ofPlace []) = ([], [""]) := rfl
    rw [away, resolve_idle idle, resolve_nil] at resolved
    exact (Except.ok.inj resolved).symm
  | cons s names =>
    have away : origin fs.here (.ofPlace (s :: names)) = ([], s :: names) := rfl
    rw [away] at resolved
    exact eq_of_resolve_names sound (leads.proper (proper.origin p)) there plain resolved

/-- To make a path canonical twice is to do it once. -/
theorem canonicalOrSelf_idem (sound : fs.Sound) (proper : Proper fs.here) (p : Path) :
    fs.canonicalOrSelf (fs.canonicalOrSelf p) = fs.canonicalOrSelf p := by
  cases own : fs.canonical? p with
  | error e =>
    have same : fs.canonicalOrSelf p = p := by rw [canonicalOrSelf, own]
    rw [same, same]
  | ok place =>
    have there : fs.canonicalOrSelf p = .ofPlace place := by rw [canonicalOrSelf, own]
    rw [there, canonicalOrSelf]
    cases found : fs.canonical? (.ofPlace place) with
    | error e => rfl
    | ok r => rw [eq_of_canonical_place sound proper own found]

end FileSystem

/-- An indexer names files below a path that is canonical when it is made. -/
theorem Indexer.canonical_create {fs : FileSystem} (sound : fs.Sound)
    (proper : FileSystem.Proper fs.here) (o : Options) (batchSize concurrency : Nat) (root : Path) :
    fs.canonicalOrSelf (create fs o batchSize concurrency root).anchor =
      (create fs o batchSize concurrency root).anchor :=
  FileSystem.canonicalOrSelf_idem sound proper root

end CodeSearch
