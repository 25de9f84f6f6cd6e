import CodeSearch.Proofs.Store.Disk

/-! # Snapshots in place of one another

A store writes each snapshot beside the old one and moves it over that. Once this has gone
well it goes well every time, so it is enough to assume it of the files at the start.
-/

namespace CodeSearch

namespace FileSystem

variable {fs : FileSystem} {p : Path} {q : Place} {ext : String} {c : Bytes}

namespace Site

variable (site : Site fs p)

theorem eq_beside_of_plain (long : 2 ≤ ext.length)
    (plain : ∀ t, fs.get? (site.beside ext) ≠ some (.link t))
    (located : fs.locate true (p.withExtension ext) = .ok q) : q = site.beside ext := by
  rw [site.locate_beside long (locate_ok.mp located).1,
    resolve_name (Path.step?_renamed long)] at located
  split at located
  · cases located
  · split at located
    · exact (Except.ok.inj located).symm
    · exact (Except.ok.inj located).symm
    · rw [resolve_nil] at located
      exact (Except.ok.inj located).symm
    · rename_i there
      exact absurd there (plain _)

theorem locate_unfollowed (long : 2 ≤ ext.length)
    (located : fs.locate true (p.withExtension ext) = .ok q) :
    fs.locate false (p.withExtension ext) = .ok (site.beside ext) := by
  have spelled := (locate_ok.mp located).1
  rw [site.locate_beside long spelled, resolve_name (Path.step?_renamed long)] at located
  refine (site.locate_beside_iff long).mpr ⟨spelled, ?_, rfl⟩
  intro wide
  rw [if_pos wide] at located
  cases located

theorem locate_place (last : site.idles = []) (located : fs.locate true p = .ok q) :
    fs.locate false p = .ok site.place := by
  have spelled := (locate_ok.mp located).1
  rw [site.locate_own spelled, last, resolve_name site.step] at located
  refine (site.locate_place_iff last).mpr ⟨spelled, ?_, rfl⟩
  intro wide
  rw [if_pos wide] at located
  cases located

/-- What is found at the site is a file or a link to one. -/
theorem place_ne_directory (last : site.idles = []) (found : fs.entry? p = .ok (.file c)) :
    fs.get? site.place ≠ some .directory := by
  intro directory
  obtain ⟨q, located, there⟩ := entry?_ok.mp found
  rw [site.locate_own (locate_ok.mp located).1, last, resolve_name site.step] at located
  split at located
  · cases located
  · have here : fs.get? (site.dir ++ [site.name]) = some .directory := directory
    rw [here] at located
    obtain rfl := Except.ok.inj (resolve_nil.symm.trans located)
    exact absurd (here.symm.trans there) nofun

end Site

theorem rename_of {source target : Path} {old new : Place}
    (first : fs.locate false source = .ok old) (last : fs.locate false target = .ok new)
    (there : fs.get? old = some (.file c)) (kept : fs.get? new ≠ some .directory) :
    ∃ after, fs.rename source target = .ok after := by
  unfold rename
  simp only [first, last, bind, Except.bind, there]
  cases taken : fs.get? new with
  | none => exact ⟨_, rfl⟩
  | some e =>
    cases e with
    | directory => exact absurd taken kept
    | _ => exact ⟨_, rfl⟩

end FileSystem

namespace Store

variable {fs g h mid : FileSystem} {p : Path} {r : Except StoreError Unit} {c c' : Bytes}

theorem tmp_long : 2 ≤ "json.tmp".length := by decide

theorem extension?_ne_tmp : p.extension? ≠ some "json.tmp" :=
  Path.extension?_ne (by decide)

theorem Unlinked.touch {ext : String} {other : Path} (site : fs.Site p) (sound : fs.Sound)
    (long : 2 ≤ ext.length) (touched : fs.touch other = .ok g) (unlinked : Unlinked p ext fs) :
    Unlinked p ext g := by
  intro q t located link
  obtain ⟨-, grows, -⟩ := FileSystem.touch_ok sound touched
  obtain ⟨spelled, short, rfl⟩ := ((site.grow grows).locate_beside_iff long).mp located
  have before := (site.locate_beside_iff long).mpr ⟨spelled, short, rfl⟩
  refine unlinked _ t before ?_
  rcases FileSystem.touch_cases touched with rfl | ⟨x, -, absent, rfl⟩
  · exact link
  · have away : x ≠ [] := by
      rintro rfl
      simp [FileSystem.get?_root] at absent
    change (fs.set x (.file [])).get? (site.beside ext) = _ at link
    rw [FileSystem.get?_set away] at link
    split at link
    · cases link
    · exact link

/-- A snapshot is there, and the next one is written to no link. -/
structure Filled (p : Path) (c : Bytes) (fs : FileSystem) : Prop where
  sound : fs.Sound
  parents : fs.HasParent p
  found : fs.entry? p = .ok (.file c)
  unlinked : Unlinked p "json.tmp" fs

namespace Filled

theorem exists_site (filled : Filled p c fs) : Nonempty (fs.Site p) := by
  obtain ⟨q, located, there⟩ := FileSystem.entry?_ok.mp filled.found
  obtain ⟨name, named⟩ :=
    FileSystem.fileName?_of_locate filled.sound located (by simp [there])
  exact FileSystem.exists_site filled.sound named filled.parents

/-- The lock and the directories leave a snapshot as it is. -/
theorem prepare (filled : Filled p c fs) (run : prepare p fs = (r, g)) : Filled p c g := by
  obtain ⟨sound, parents, found, unlinked⟩ := filled
  obtain ⟨site⟩ := exists_site ⟨sound, parents, found, unlinked⟩
  rw [prepare_of_parents sound parents] at run
  rcases StoreAction.change_cases run with ⟨rfl, touched⟩ | ⟨e, rfl, -, rfl⟩
  · obtain ⟨sound', grows, -⟩ := FileSystem.touch_ok sound touched
    exact ⟨sound', parents.grow sound sound' grows,
      FileSystem.entry?_touch sound touched found, unlinked.touch site sound tmp_long touched⟩
  · exact ⟨sound, parents, found, unlinked⟩

end Filled

/-- A snapshot that was moved into place is there. -/
theorem filled_of_moved {site : fs.Site p} (moved : FileSystem.Moved site "json.tmp" mid h)
    (found : h.entry? p = .ok (.file c)) : Filled p c h := by
  refine ⟨moved.sound, moved.site.hasParent moved.sound moved.spelled, found, ?_⟩
  intro q t located
  obtain ⟨-, -, rfl⟩ := (moved.site.locate_beside_iff tmp_long).mp located
  have gone : h.get? (moved.site.beside "json.tmp") = none := moved.beside
  simp [gone]

/-- What was written to no link is at the site. -/
theorem written (site : fs.Site p) (sound : fs.Sound) (unlinked : Unlinked p "json.tmp" fs)
    (wrote : fs.write (p.withExtension "json.tmp") c = .ok mid) :
    FileSystem.Grows fs mid ∧ mid.get? (site.beside "json.tmp") = some (.file c) ∧
      mid.locate false (p.withExtension "json.tmp") = .ok (site.beside "json.tmp") ∧
        mid.get? site.place = fs.get? site.place := by
  obtain ⟨q, located, file, plain, -, rfl⟩ := FileSystem.write_ok sound wrote
  have before := site.locate_unfollowed tmp_long located
  obtain rfl := site.eq_beside_of_plain tmp_long (fun t => unlinked _ t before) located
  have away : site.beside "json.tmp" ≠ [] := by simp [FileSystem.Site.beside]
  have grows := FileSystem.grows_set file plain (.file c)
  obtain ⟨spelled, short, -⟩ := (site.locate_beside_iff tmp_long).mp before
  refine ⟨grows, ?_, ((site.grow grows).locate_beside_iff tmp_long).mpr ⟨spelled, short, rfl⟩, ?_⟩
  · rw [FileSystem.get?_set away, if_pos rfl]
  · rw [FileSystem.get?_set away, if_neg (site.beside_ne_place extension?_ne_tmp).symm]

theorem moved_of_put (prepared : Prepared p fs)
    (found : fs.entry? p = .error .missing ∨ ∃ c, fs.entry? p = .ok (.file c))
    (run : put p c fs = (.ok (), h)) :
    ∃ (site : fs.Site p) (mid : FileSystem), fs.write (p.withExtension "json.tmp") c = .ok mid ∧
      mid.rename (p.withExtension "json.tmp") p = .ok h ∧
        FileSystem.Moved site "json.tmp" mid h := by
  rcases put_cases run with ⟨e, failed, -⟩ | ⟨mid, wrote, moves⟩
  · cases failed
  · rcases StoreAction.change_cases moves with ⟨-, renamed⟩ | ⟨e, failed, -⟩
    · obtain ⟨q, -, file, plain, into, rfl⟩ := FileSystem.write_ok prepared.sound wrote
      have sound := prepared.sound.set file into (.file c)
      obtain ⟨old, new, e, -, target, -, -, kept, -⟩ := FileSystem.rename_ok sound renamed
      obtain ⟨name, named⟩ := FileSystem.fileName?_of_locate sound target kept
      obtain ⟨site⟩ := FileSystem.exists_site prepared.sound named prepared.parents
      exact ⟨site, _, wrote, renamed,
        FileSystem.moved site prepared.sound extension?_ne_tmp tmp_long found wrote renamed⟩
    · cases failed

/-- Where no link is in the way, a write succeeds or changes nothing. -/
theorem put_of_unlinked (site : fs.Site p) (sound : fs.Sound) (unlinked : Unlinked p "json.tmp" fs)
    (last : site.idles = []) (located : fs.locate false p = .ok site.place)
    (kept : fs.get? site.place ≠ some .directory)
    (found : fs.entry? p = .error .missing ∨ ∃ c, fs.entry? p = .ok (.file c))
    (run : put p c fs = (r, h)) : (r = .ok () → Filled p c h) ∧ (r ≠ .ok () → h = fs) := by
  rcases put_cases run with ⟨e, rfl, rfl⟩ | ⟨mid, wrote, moves⟩
  · exact ⟨nofun, fun _ => rfl⟩
  · obtain ⟨grows, there, source, same⟩ := written site sound unlinked wrote
    obtain ⟨spelled, short, -⟩ := (site.locate_place_iff last).mp located
    have target : mid.locate false p = .ok site.place :=
      ((site.grow grows).locate_place_iff last).mpr ⟨spelled, short, rfl⟩
    obtain ⟨after, renamed⟩ := FileSystem.rename_of source target there (same ▸ kept)
    rcases StoreAction.change_cases moves with ⟨rfl, done⟩ | ⟨e, -, failed, -⟩
    · have moved := FileSystem.moved site sound extension?_ne_tmp tmp_long found wrote done
      exact ⟨fun _ => filled_of_moved moved (moved.entry? there), fun h => absurd rfl h⟩
    · exact absurd (renamed.symm.trans failed) nofun

theorem Filled.replaces (filled : Filled p c fs) : Replaces p fs := by
  intro c' r h run
  obtain ⟨site⟩ := filled.exists_site
  obtain ⟨q, located, there⟩ := FileSystem.entry?_ok.mp filled.found
  have last := site.idles_eq_nil filled.sound located (by simp [there])
  obtain ⟨there, same⟩ := put_of_unlinked site filled.sound filled.unlinked last
    (site.locate_place last located) (site.place_ne_directory last filled.found)
    (.inr ⟨c, filled.found⟩) run
  exact ⟨fun ok => (there ok).found, fun failed => by rw [same failed]⟩

/-! ## Before the first write -/

/-- No snapshot is there yet, but its directory is. The lock has another name, and no links are
in the way. -/
structure Vacant (p : Path) (fs : FileSystem) : Prop where
  sound : fs.Sound
  parents : fs.HasParent p
  absent : ∃ q, fs.locate false p = .ok q ∧ fs.get? q = none
  other : p.extension? ≠ some "lock"
  lock : Unlinked p "lock" fs
  unlinked : Unlinked p "json.tmp" fs

namespace Vacant

theorem exists_site (vacant : Vacant p fs) : ∃ site : fs.Site p, site.idles = [] ∧
    fs.locate false p = .ok site.place ∧ fs.get? site.place = none := by
  obtain ⟨q, located, absent⟩ := vacant.absent
  have file : fs.get? q ≠ some .directory := by simp [absent]
  obtain ⟨name, named⟩ := FileSystem.fileName?_of_locate vacant.sound located file
  obtain ⟨site⟩ := FileSystem.exists_site vacant.sound named vacant.parents
  have last := site.idles_eq_nil vacant.sound located file
  obtain ⟨-, -, rfl⟩ := (site.locate_place_iff last).mp located
  exact ⟨site, last, located, absent⟩

theorem missing (vacant : Vacant p fs) : fs.entry? p = .error .missing := by
  obtain ⟨site, last, located, absent⟩ := vacant.exists_site
  obtain ⟨spelled, short, -⟩ := (site.locate_place_iff last).mp located
  have there : fs.locate true p = .ok site.place := by
    have none_ : fs.get? (site.dir ++ [site.name]) = none := absent
    rw [site.locate_own spelled, last, FileSystem.resolve_name site.step, if_neg short, none_]
    rfl
  simp [FileSystem.entry?, there, Except.bind, absent]

/-- Opening the lock makes no snapshot. -/
theorem prepare (vacant : Vacant p fs) (run : prepare p fs = (r, g)) : Vacant p g := by
  obtain ⟨site, last, located, absent⟩ := vacant.exists_site
  obtain ⟨sound, parents, -, other, lock, unlinked⟩ := vacant
  rw [prepare_of_parents sound parents] at run
  rcases StoreAction.change_cases run with ⟨rfl, touched⟩ | ⟨e, rfl, -, rfl⟩
  · obtain ⟨sound', grows, -⟩ := FileSystem.touch_ok sound touched
    have short : 2 ≤ "lock".length := by decide
    refine ⟨sound', parents.grow sound sound' grows, ⟨site.place, ?_, ?_⟩, other,
      lock.touch site sound short touched, unlinked.touch site sound tmp_long touched⟩
    · exact ((site.grow grows).locate_place_iff last).mpr ((site.locate_place_iff last).mp located)
    · rcases FileSystem.touch_cases touched with rfl | ⟨x, opened, none_, rfl⟩
      · exact absent
      · have before := site.locate_unfollowed short opened
        obtain rfl := site.eq_beside_of_plain short (fun t => lock _ t before) opened
        have away : site.beside "lock" ≠ [] := by simp [FileSystem.Site.beside]
        rw [FileSystem.get?_set away, if_neg (site.beside_ne_place other).symm, absent]
  · exact ⟨sound, parents, ⟨_, located, absent⟩, other, lock, unlinked⟩

theorem replaces (vacant : Vacant p fs) : Replaces p fs := by
  intro c r h run
  obtain ⟨site, last, located, absent⟩ := vacant.exists_site
  obtain ⟨there, same⟩ := put_of_unlinked site vacant.sound vacant.unlinked last located
    (by simp [absent]) (.inl vacant.missing) run
  exact ⟨fun ok => (there ok).found, fun failed => by rw [same failed]⟩

end Vacant

theorem Prepared.write (prepared : Prepared p fs)
    (wrote : fs.write (p.withExtension "json.tmp") c = .ok mid) : Prepared p mid := by
  obtain ⟨q, -, file, plain, into, rfl⟩ := FileSystem.write_ok prepared.sound wrote
  have grows := FileSystem.grows_set file plain (.file c)
  have sound := prepared.sound.set file into (.file c)
  have away : q ≠ [] := by
    rintro rfl
    exact file FileSystem.get?_root
  refine ⟨sound, prepared.parents.grow prepared.sound sound grows, ?_⟩
  obtain ⟨x, b, located, there⟩ := FileSystem.file_of_touch prepared.sound prepared.locked
  obtain ⟨b', still⟩ : ∃ b', (fs.set q (.file c)).get? x = some (.file b') := by
    rw [FileSystem.get?_set away]
    split
    · exact ⟨c, rfl⟩
    · exact ⟨b, there⟩
  exact FileSystem.touch_of_file
    (FileSystem.locate_grow grows (by simp [still]) (by simp [still]) located) still

/-- After a write that failed the next one does what it would have done without. -/
theorem put_again (prepared : Prepared p fs) (run : put p c fs = (r, h)) (failed : r ≠ .ok ()) :
    Prepared p h ∧ ∀ c', put p c' h = put p c' fs := by
  rcases put_cases run with ⟨e, -, rfl⟩ | ⟨mid, wrote, moves⟩
  · exact ⟨prepared, fun _ => rfl⟩
  · rcases StoreAction.change_cases moves with ⟨rfl, -⟩ | ⟨e, -, -, rfl⟩
    · exact absurd rfl failed
    · refine ⟨prepared.write wrote, fun c' => ?_⟩
      obtain ⟨q, located, file, plain, -, rfl⟩ := FileSystem.write_ok prepared.sound wrote
      have grows := FileSystem.grows_set file plain (.file c)
      have away : q ≠ [] := by
        rintro rfl
        exact file FileSystem.get?_root
      have there : (fs.set q (.file c)).get? q = some (.file c) := by
        rw [FileSystem.get?_set away, if_pos rfl]
      have again := FileSystem.locate_grow grows (by simp [there]) (by simp [there]) located
      have rewrites := FileSystem.write_of_locate again (by simp [there]) c'
      rw [FileSystem.set_set] at rewrites
      rw [put_of_written rewrites, put_of_written (FileSystem.write_of_locate located file c')]

/-! ## Files that keep snapshots -/

variable {dimension : Nat} {D D' : Table Record}

/-- The records on disk, which a store finds as well after it has opened the lock, and a
snapshot that can be replaced. -/
structure Carries (dimension : Nat) (p : Path) (D : Table Record) (fs : FileSystem) : Prop where
  sound : fs.Sound
  now : recordsOf dimension (fs.entry? p) = .ok D
  locked : recordsOf dimension (FileSystem.entry? (prepare p fs).2 p) = .ok D
  replaces : ∀ g, prepare p fs = (.ok (), g) → Replaces p g

theorem found_of_recordsOf {found : Except FileError Entry}
    (h : recordsOf dimension found = .ok D) :
    found = .error .missing ∨ ∃ c, found = .ok (.file c) := by
  rcases found with e | e
  · cases e with
    | missing => exact .inl rfl
    | _ => cases h
  · cases e with
    | file c => exact .inr ⟨c, rfl⟩
    | _ => cases h

theorem Filled.carries (filled : Filled p c fs) (reads : Snapshot.recordsFor dimension c = .ok D) :
    Carries dimension p D fs := by
  have found : recordsOf dimension (.ok (.file c)) = .ok D := reads
  refine ⟨filled.sound, ?_, ?_, fun g run => (filled.prepare run).replaces⟩
  · rwa [filled.found]
  · rcases run : Store.prepare p fs with ⟨r, g⟩
    rwa [(filled.prepare run).found]

theorem Vacant.carries (vacant : Vacant p fs) : Carries dimension p .empty fs := by
  refine ⟨vacant.sound, ?_, ?_, fun g run => (vacant.prepare run).replaces⟩
  · rw [vacant.missing]
    rfl
  · rcases run : Store.prepare p fs with ⟨r, g⟩
    rw [(vacant.prepare run).missing]
    rfl

namespace Carries

theorem prepare (carries : Carries dimension p D fs) (run : prepare p fs = (r, g)) :
    Carries dimension p D g := by
  obtain ⟨sound, ready, stuck⟩ := prepare_settled carries.sound run
  have found := carries.locked
  rw [run] at found
  by_cases done : r = .ok ()
  · subst done
    have again := (ready rfl).prepare_eq
    refine ⟨sound, found, by rwa [again], fun g' run' => ?_⟩
    obtain ⟨-, rfl⟩ := Prod.mk.inj (again.symm.trans run')
    exact carries.replaces _ run
  · obtain ⟨e, again⟩ := stuck done
    refine ⟨sound, found, by rwa [again], fun g' run' => ?_⟩
    exact absurd (Prod.mk.inj (again.symm.trans run')).1 nofun

/-- A write that succeeds leaves its snapshot. -/
theorem filled (carries : Carries dimension p D fs) (ready : Store.prepare p fs = (.ok (), g))
    (run : put p c g = (.ok (), h)) : Filled p c h := by
  have prepared := (prepare_settled carries.sound ready).2.1 rfl
  have found := carries.locked
  rw [ready] at found
  have there := (carries.replaces g ready c _ h run).1 rfl
  obtain ⟨site, mid, -, -, moved⟩ := moved_of_put prepared (found_of_recordsOf found) run
  exact filled_of_moved moved there

/-- A write that succeeds changes the records to those it wrote, and one that fails does not. -/
theorem put (carries : Carries dimension p D fs) (ready : Store.prepare p fs = (.ok (), g))
    (run : put p c g = (r, h)) :
    (r ≠ .ok () → Carries dimension p D h) ∧
      (r = .ok () → Snapshot.recordsFor dimension c = .ok D' → Carries dimension p D' h) := by
  have prepared := (prepare_settled carries.sound ready).2.1 rfl
  have replaces := carries.replaces g ready
  have found := carries.locked
  rw [ready] at found
  have same := (replaces c r h run).2
  constructor
  · intro failed
    obtain ⟨prepared', again⟩ := put_again prepared run failed
    have records : recordsOf dimension (h.entry? p) = .ok D := by rwa [same failed]
    refine ⟨prepared'.sound, records, by rwa [prepared'.prepare_eq], fun g' run' => ?_⟩
    obtain ⟨-, rfl⟩ := Prod.mk.inj (prepared'.prepare_eq.symm.trans run')
    intro c' r' after run''
    rw [again] at run''
    rw [same failed]
    exact replaces c' r' after run''
  · rintro rfl reads
    exact (carries.filled ready run).carries reads

end Carries

end Store

end CodeSearch
