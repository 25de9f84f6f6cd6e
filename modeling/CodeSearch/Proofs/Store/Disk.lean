import CodeSearch.Proofs.Files.Site
import CodeSearch.Proofs.Store.Steps

/-! # Snapshots on disk

What a load finds depends on what the path of the snapshot leads to. A write first makes the
directories and the lock, and then puts the snapshot in place; where both leave the rest as
it was, they do so ever after.
-/

namespace CodeSearch

namespace FileSystem

variable {fs after : FileSystem} {p other : Path} {q : Place} {c : Bytes}

/-- What has no file name is a directory, if anything. -/
theorem fileName?_of_locate {follow : Bool} (sound : fs.Sound)
    (located : fs.locate follow p = .ok q) (file : fs.get? q ≠ some .directory) :
    ∃ name, p.fileName? = some name := by
  cases named : p.fileName? with
  | some name => exact ⟨name, rfl⟩
  | none =>
    exfalso
    apply file
    obtain ⟨-, resolved⟩ := locate_ok.mp located
    have start := origin_is_directory sound p
    rw [Path.origin_eq] at resolved start
    obtain ⟨idles, idle, whole⟩ := Path.trimEnd_append p.body
    rcases Path.trimEnd_of_fileName? named with none | ⟨dirs, last, body, up⟩
    · rw [none, List.nil_append] at whole
      have all : ∀ piece ∈ p.lead.dots ++ p.body, Path.step? piece = .none := by
        intro piece hp
        rcases List.mem_append.mp hp with dot | rest
        · exact Path.step?_dots piece dot
        · exact idle piece (whole ▸ rest)
      rw [resolve_idles all] at resolved
      exact Except.ok.inj resolved ▸ start
    · have pieces : p.lead.dots ++ p.body = (p.lead.dots ++ dirs) ++ last :: idles := by
        rw [whole, body]
        simp
      dsimp only at resolved
      rw [pieces] at resolved
      obtain ⟨m, r, way⟩ := (leads_of_resolve resolved).enters (List.cons_ne_nil _ _)
      rw [way.resolve_append (.inl (List.cons_ne_nil _ _)), resolve_up up,
        resolve_idles idle] at resolved
      exact Except.ok.inj resolved ▸ sound.parent _ _ (way.directory sound start)

/-- A touched file is there, and nothing else changed. -/
theorem touch_cases (ok : fs.touch p = .ok after) : after = fs ∨
    ∃ q, fs.locate true p = .ok q ∧ fs.get? q = none ∧ after = fs.set q (.file []) := by
  unfold touch at ok
  cases located : fs.locate true p with
  | error e => simp [located, Except.bind] at ok
  | ok q =>
    simp only [located, Except.bind] at ok
    split at ok
    · cases ok
    · exact .inl (Except.ok.inj ok).symm
    · rename_i absent
      exact .inr ⟨q, rfl, absent, (Except.ok.inj ok).symm⟩

theorem touch_of_file {content : Bytes} (located : fs.locate true p = .ok q)
    (there : fs.get? q = some (.file content)) : fs.touch p = .ok fs := by
  simp [touch, located, there, Except.bind]

/-- A touch that changes nothing finds a file. -/
theorem file_of_touch (sound : fs.Sound) (ok : fs.touch p = .ok fs) :
    ∃ q content, fs.locate true p = .ok q ∧ fs.get? q = some (.file content) := by
  unfold touch at ok
  cases located : fs.locate true p with
  | error e => simp [located, Except.bind] at ok
  | ok q =>
    have start := origin_is_directory sound p
    have plain := (leads_of_resolve (locate_ok.mp located).2).no_link sound start
    simp only [located, Except.bind] at ok
    cases there : fs.get? q with
    | some e =>
      cases e with
      | file content => exact ⟨q, content, rfl, there⟩
      | link t => exact absurd there (plain t)
      | directory => simp [there] at ok
    | none =>
      have away : q ≠ [] := by
        rintro rfl
        simp [get?_root] at there
      simp only [there] at ok
      have now : (fs.set q (.file [])).get? q = some (.file []) := by simp [get?_set away]
      rw [Except.ok.inj ok, there] at now
      cases now

theorem write_of_locate (located : fs.locate true p = .ok q)
    (file : fs.get? q ≠ some .directory) (content : Bytes) :
    fs.write p content = .ok (fs.set q (.file content)) := by
  unfold write
  simp only [located, Except.bind]

/-- A file that is there stays when another is touched. -/
theorem entry?_touch (sound : fs.Sound) (ok : fs.touch other = .ok after)
    (found : fs.entry? p = .ok (.file c)) : after.entry? p = .ok (.file c) := by
  obtain ⟨-, grows, -⟩ := touch_ok sound ok
  obtain ⟨q, located, there⟩ := entry?_ok.mp found
  have still : after.get? q = some (.file c) := by
    rcases touch_cases ok with rfl | ⟨r, -, absent, rfl⟩
    · exact there
    · have away : r ≠ [] := by
        rintro rfl
        simp [get?_root] at absent
      have other : q ≠ r := by
        rintro rfl
        simp [there] at absent
      rw [get?_set away, if_neg other, there]
  exact entry?_ok.mpr ⟨q, locate_grow grows (by simp [still]) (by simp [still]) located, still⟩

/-- A site is in the parent of its path. -/
theorem Site.hasParent (site : Site fs p) (sound : fs.Sound) (spelled : p.Spelled) :
    fs.HasParent p := by
  intro up h
  rw [Path.parent?_eq site.trimmed] at h
  obtain rfl := Option.some.inj h
  by_cases filled : (Path.build p.lead (Path.trimEnd site.dirs)).toText = ""
  · exact .inl filled
  · have way := (Path.enters_parent site.trimmed filled).mpr site.way
    have above := spelled.parent site.trimmed filled
    exact .inr ((isDirectory_iff sound).mpr ⟨above, site.links, site.dir, way⟩)

end FileSystem

namespace Store

variable {fs g h : FileSystem} {p : Path} {r : Except StoreError Unit} {c : Bytes}
variable {dimension : Nat}

/-- The records of a snapshot by what its path leads to. -/
def recordsOf (dimension : Nat) : Except FileError Entry → Except StoreError (Table Record)
  | .ok (.file bytes) => Snapshot.recordsFor dimension bytes
  | .ok .directory => .error (.files FileError.isDirectory.message)
  | .ok (.link _) => .error (.files FileError.linkLoop.message)
  | .error .missing => .ok .empty
  | .error e => .error (.files e.message)

theorem load_eq (s : Store) : s.load p fs = (recordsOf s.dimension (fs.entry? p), fs) := by
  unfold load
  cases found : fs.entry? p with
  | ok e =>
    have there : StoreAction.query (fun fs => fs.exists? p) fs = (.ok true, fs) := by
      simp [StoreAction.query, FileSystem.exists?, found]
    rw [StoreAction.bind_of_ok there, if_pos rfl]
    cases e with
    | file bytes =>
      have read : StoreAction.query (fun fs => fs.read p) fs = (.ok bytes, fs) := by
        simp [StoreAction.query, FileSystem.read, found, Except.bind]
      rw [StoreAction.bind_of_ok read]
      rfl
    | _ =>
      refine StoreAction.bind_of_error ?_
      simp [StoreAction.query, FileSystem.read, found, Except.bind]
  | error e =>
    cases e with
    | missing =>
      have absent : StoreAction.query (fun fs => fs.exists? p) fs = (.ok false, fs) := by
        simp [StoreAction.query, FileSystem.exists?, found]
      rw [StoreAction.bind_of_ok absent]
      rfl
    | _ =>
      refine StoreAction.bind_of_error ?_
      simp [StoreAction.query, FileSystem.exists?, found]

/-! ## Before a snapshot is written -/

/-- The directories and the lock are there, and making them again changes nothing. -/
structure Prepared (p : Path) (fs : FileSystem) : Prop where
  sound : fs.Sound
  parents : fs.HasParent p
  locked : fs.touch (p.withExtension "lock") = .ok fs

theorem makeParents_of_parents (sound : fs.Sound) (parents : fs.HasParent p) :
    makeParents p fs = (.ok (), fs) := by
  unfold makeParents
  cases above : p.parent? with
  | none => rfl
  | some up =>
    have made : fs.makeDirectories up = (.ok (), fs) :=
      FileSystem.makeDirectoriesFrom_of_isDirectory sound (Path.slashless_parent above)
        (parents up above) _
    simp [StoreAction.changes, made]

theorem prepare_of_parents (sound : fs.Sound) (parents : fs.HasParent p) :
    prepare p fs = lock p fs :=
  StoreAction.bind_of_ok (makeParents_of_parents sound parents)

theorem Prepared.prepare_eq (prepared : Prepared p fs) : prepare p fs = (.ok (), fs) := by
  rw [prepare_of_parents prepared.sound prepared.parents]
  exact StoreAction.change_of_ok prepared.locked

/-- What is left of the directories above a path once they were made. -/
theorem makeParents_settled (sound : fs.Sound) (run : makeParents p fs = (r, g)) :
    g.Sound ∧ FileSystem.Grows fs g ∧ (makeParents p g).2 = g ∧
      (r ≠ .ok () → (makeParents p g).1 ≠ .ok ()) ∧
        (r = .ok () → g.HasParent p) := by
  unfold makeParents at run ⊢
  cases above : p.parent? with
  | none =>
    simp only [above] at run
    obtain ⟨rfl, rfl⟩ := Prod.mk.inj run
    refine ⟨sound, .refl fs, rfl, fun h => absurd rfl h, fun _ up there => ?_⟩
    exact absurd (above.symm.trans there) nofun
  | some up =>
    simp only [above, StoreAction.changes] at run ⊢
    rcases made : fs.makeDirectories up with ⟨made', after⟩
    have settled := FileSystem.settled _ sound (Path.slashless_parent above) made
    have again := settled.again
    have failed := settled.failed
    change (after.makeDirectories up).2 = after at again
    change made' ≠ .ok () → (after.makeDirectories up).1 ≠ .ok () at failed
    rw [made] at run
    cases made' with
    | ok _ =>
      obtain ⟨rfl, rfl⟩ := Prod.mk.inj run
      refine ⟨settled.sound, settled.grows, ?_, fun h => absurd rfl h, ?_⟩
      · split <;> simp_all
      · intro _ up' same
        obtain rfl := Option.some.inj (above.symm.trans same)
        exact settled.there rfl
    | error e =>
      obtain ⟨rfl, rfl⟩ := Prod.mk.inj run
      refine ⟨settled.sound, settled.grows, ?_, fun _ => ?_, nofun⟩
      · split <;> simp_all
      · have still := failed nofun
        split <;> simp_all

/-- Preparing twice is preparing once. -/
theorem prepare_settled (sound : fs.Sound) (run : prepare p fs = (r, g)) :
    g.Sound ∧ (r = .ok () → Prepared p g) ∧
      (r ≠ .ok () → ∃ e, prepare p g = (.error e, g)) := by
  rcases made : makeParents p fs with ⟨r', mid⟩
  obtain ⟨sound', -, again, failed, parents⟩ := makeParents_settled sound made
  cases r' with
  | error e =>
    obtain ⟨rfl, rfl⟩ := Prod.mk.inj ((StoreAction.bind_of_error made).symm.trans run)
    refine ⟨sound', nofun, fun _ => ?_⟩
    rcases twice : makeParents p mid with ⟨e' | _, after⟩
    · rw [twice] at again
      obtain rfl : after = mid := again
      exact ⟨e', StoreAction.bind_of_error twice⟩
    · exact absurd (by rw [twice]) (failed nofun)
  | ok _ =>
    have there := parents rfl
    have locks : lock p mid = (r, g) := (StoreAction.bind_of_ok made).symm.trans run
    rcases StoreAction.change_cases locks with ⟨rfl, touched⟩ | ⟨e, rfl, -, rfl⟩
    · obtain ⟨sound'', grows, locked⟩ := FileSystem.touch_ok sound' touched
      exact ⟨sound'', fun _ => ⟨sound'', there.grow sound' sound'' grows, locked⟩,
        fun h => absurd rfl h⟩
    · exact ⟨sound', nofun, fun _ => ⟨_, (prepare_of_parents sound' there).trans locks⟩⟩

/-! ## Putting a snapshot in place -/

/-- Write bytes beside a path and then move them there. -/
def put (p : Path) (c : Bytes) : StoreAction Unit := do
  StoreAction.change fun fs => fs.write (p.withExtension "json.tmp") c
  StoreAction.change fun fs => fs.rename (p.withExtension "json.tmp") p

theorem writeSnapshot_eq (s : Store) (records : Table Record) :
    s.writeSnapshot p records =
      put p (Snapshot.encode ⟨StoreError.schemaVersion, s.dimension, s.metric, records⟩) := rfl

/-- Everything that putting bytes in place can have done. -/
theorem put_cases (run : put p c fs = (r, g)) :
    (∃ e, r = .error e ∧ g = fs) ∨
      ∃ mid, fs.write (p.withExtension "json.tmp") c = .ok mid ∧
        StoreAction.change (fun fs => fs.rename (p.withExtension "json.tmp") p) mid = (r, g) := by
  rcases written :
    StoreAction.change (fun fs => fs.write (p.withExtension "json.tmp") c) fs with ⟨r', mid⟩
  rcases StoreAction.change_cases written with ⟨rfl, wrote⟩ | ⟨e, rfl, -, rfl⟩
  · exact .inr ⟨mid, wrote, (StoreAction.bind_of_ok written).symm.trans run⟩
  · obtain ⟨rfl, rfl⟩ := Prod.mk.inj ((StoreAction.bind_of_error written).symm.trans run)
    exact .inl ⟨_, rfl, rfl⟩

theorem put_of_written {mid : FileSystem}
    (written : fs.write (p.withExtension "json.tmp") c = .ok mid) :
    put p c fs =
      StoreAction.change (fun fs => fs.rename (p.withExtension "json.tmp") p) mid :=
  StoreAction.bind_of_ok (StoreAction.change_of_ok written)

/-- Writes and moves succeed, or what the path leads to stays as it was. -/
def Replaces (p : Path) (fs : FileSystem) : Prop :=
  ∀ c r after, put p c fs = (r, after) →
    (r = .ok () → after.entry? p = .ok (.file c)) ∧
      (r ≠ .ok () → after.entry? p = fs.entry? p)

/-- No link stands beside a path under another extension. -/
def Unlinked (p : Path) (ext : String) (fs : FileSystem) : Prop :=
  ∀ q t, fs.locate false (p.withExtension ext) = .ok q → fs.get? q ≠ some (.link t)

end Store

end CodeSearch
