import CodeSearch.Proofs.Store.Components
import CodeSearch.Proofs.Store.Durability
import CodeSearch.Proofs.Store.Found

/-! # Stores that nobody else writes

A store that alone writes its snapshot has what it finds there and what is pending. It stays alone
whatever becomes of a flush: a snapshot that can be read afterwards is the one that was written, or
the one before if the write failed.
-/

namespace CodeSearch

namespace Table

variable {α : Type} {t u : Table α}

/-- Tables with the same keys list them alike. -/
theorem keys_congr (same : ∀ key, key ∈ t.keys ↔ key ∈ u.keys) : t.keys = u.keys := by
  have ascending : ∀ t : Table α,
      (t.entries.map fun e => (e.1, ())).Pairwise fun a b => a.1 < b.1 :=
    fun t => List.pairwise_map.mpr t.ascending
  have bare : (t.entries.map fun e => (e.1, ())) = u.entries.map fun e => (e.1, ()) := by
    refine entries_eq_of_get? (ascending t) (ascending u) fun key => ?_
    rw [find?_map (fun _ => ()), find?_map (fun _ => ())]
    have alike := same key
    rw [mem_keys_iff, mem_keys_iff] at alike
    change (t.get? key).map (fun _ => ()) = (u.get? key).map fun _ => ()
    cases there : t.get? key <;> cases there' : u.get? key <;> simp_all
  simpa only [keys, List.map_map, Function.comp_def] using congrArg (List.map Prod.fst) bare

end Table

namespace FileSystem

variable {fs : FileSystem} {p : Path} {q : Place} {b : Bytes}

/-- Where a file was found, some file is found when one was put somewhere. -/
theorem file_of_set (plain : fs.Plain q) (c : Bytes) (found : fs.entry? p = .ok (.file b)) :
    ∃ b', FileSystem.entry? (fs.set q (.file c)) p = .ok (.file b') := by
  obtain ⟨x, located, there⟩ := entry?_ok.mp found
  obtain ⟨b', still⟩ : ∃ b', (fs.set q (.file c)).get? x = some (.file b') := by
    rw [get?_set plain.ne_nil]
    split
    · exact ⟨c, rfl⟩
    · exact ⟨b, there⟩
  have grows := grows_set plain.file plain.unlinked (.file c)
  exact ⟨b', entry?_ok.mpr ⟨x, locate_grow grows (by simp [still]) (by simp [still]) located, still⟩⟩

end FileSystem

namespace Store

variable {s t : Store} {fs fs' g : FileSystem} {h : Holdings} {p : Path} {c : Bytes}
variable {dimension : Nat} {found before : Table Record} {e : StoreError}

/-! ## What is read after a write -/

/-- A snapshot that is read after a write is the one that was written. -/
theorem fresh_of_put (prepared : Prepared p fs) (firm : Firm p fs)
    (run : put p c fs = (.ok (), g)) (read : fresh p dimension (prepare p g).2 = .ok found) :
    Snapshot.recordsFor dimension c = .ok found := by
  obtain ⟨sound, parents, -, written, -⟩ := prepared.put firm run
  have there : FileSystem.entry? (prepare p g).2 p = .ok (.file c) ∨
      FileSystem.entry? (prepare p g).2 p = .error .linkLoop := by
    rw [prepare_of_parents sound parents]
    rcases locks : lock p g with ⟨r, g'⟩
    rcases StoreAction.change_cases locks with ⟨-, touched⟩ | ⟨e, -, -, rfl⟩
    · obtain ⟨-, grows, -⟩ := FileSystem.touch_ok sound touched
      exact (written rfl).imp (FileSystem.entry?_touch sound touched)
        (FileSystem.entry?_loop_grow grows)
    · exact written rfl
  rw [fresh_eq] at read
  rcases there with there | loop
  · rwa [there] at read
  · rw [loop] at read
    cases read

/-- A snapshot that is read after a write that failed is the one that was to be written, or it was
read before. -/
theorem fresh_of_put_error (prepared : Prepared p fs) (firm : Firm p fs)
    (now : fresh p dimension fs = .ok before) (run : put p c fs = (.error e, g))
    (read : fresh p dimension (prepare p g).2 = .ok found) :
    Snapshot.recordsFor dimension c = .ok found ∨ found = before := by
  obtain ⟨prepared', -⟩ := put_again prepared run nofun
  obtain ⟨-, -, -, -, origin⟩ := prepared.put firm run
  rw [prepared'.prepare_eq] at read
  rw [fresh_eq] at now read
  rcases found_of_recordsOf read with missing | ⟨b, there⟩
  · right
    rcases found_of_recordsOf now with missing' | ⟨b, there⟩
    · rw [missing] at read
      rw [missing'] at now
      exact (Except.ok.inj read).symm.trans (Except.ok.inj now)
    · -- What was found is still found, so this does not happen.
      obtain ⟨b', still⟩ : ∃ b', g.entry? p = .ok (.file b') := by
        rcases set_of_put_error prepared.sound run nofun with rfl | ⟨q, plain, rfl⟩
        · exact ⟨b, there⟩
        · exact FileSystem.file_of_set plain c there
      exact absurd (missing.symm.trans still) nofun
  · rcases origin b there with rfl | same
    · left
      rwa [there] at read
    · right
      rw [there] at read
      rw [same] at now
      exact Except.ok.inj (read.symm.trans now)

/-! ## A store alone -/

/-- Nobody else has written: beside the ids that are pending, a store has those that it finds on
disk once it has opened the lock. -/
def Sole (s : Store) (fs : FileSystem) : Prop :=
  ∀ p h found, s.path = some p → s.holdings = some h →
    fresh p s.dimension (prepare p fs).2 = .ok found →
      ∀ id, id ∈ h.records.keys ↔ id ∈ h.dirty.keys ∨ id ∈ found.keys

theorem sole_of_memory (memory : s.path = none) : s.Sole fs := by
  intro p h found path
  exact absurd (memory.symm.trans path) nofun

/-- In memory there is nothing to write. -/
theorem flush_of_memory (memory : s.path = none) (held : s.holdings = some h) :
    s.flush fs = (.ok { s with holdings := some { h with dirty := .empty } }, fs) := by
  have checked : StoreAction.check s.ready fs = (.ok h, fs) := by
    rw [ready_ok.mpr held, StoreAction.check]
  rw [flush, StoreAction.bind_of_ok checked]
  simp only [memory]
  rfl

/-- Records that come in are pending. -/
theorem Sole.upserted (sole : s.Sole fs) (held : s.holdings = some h)
    (es : List (String × Record)) : Sole { s with holdings := some (h.upserted es) } fs := by
  intro p h' found path held' found_ id
  obtain rfl := Option.some.inj held'
  change id ∈ (h.records.insertAll es).keys ↔ _
  rw [Table.mem_keys_insertAll, Holdings.mem_dirty_upserted, sole p h found path held found_ id,
    or_assoc]

/-- What a store alone puts over what it finds are its own records. -/
theorem Sole.keys_overlay (sole : s.Sole fs) (path : s.path = some p) (held : s.holdings = some h)
    (read : fresh p s.dimension (prepare p fs).2 = .ok found) :
    (overlay found h.dirty.keys h.records).keys = h.records.keys := by
  refine Table.keys_congr fun id => ?_
  have own := sole p h found path held read id
  rw [Table.mem_keys_iff, get?_overlay, own]
  by_cases waits : id ∈ h.dirty.keys
  · have there := Table.mem_keys_iff.mp (own.mpr (.inl waits))
    rw [if_pos waits, Option.or_of_isSome there]
    exact ⟨fun _ => .inl waits, fun _ => there⟩
  · rw [if_neg waits, ← Table.mem_keys_iff]
    exact (or_iff_right waits).symm

/-- A flush of a store alone leaves its records, and nothing is pending then. -/
theorem Sole.flush_cases (sole : s.Sole fs) (held : s.holdings = some h)
    (run : s.flush fs = (.ok t, fs')) :
    t = s ∧ fs' = fs ∨ t = { s with holdings := some { h with dirty := .empty } } ∧
      ∀ p, s.path = some p → ∃ found ready, prepare p fs = (.ok (), ready) ∧
        fresh p s.dimension ready = .ok found ∧
        (overlay found h.dirty.keys h.records).keys = h.records.keys ∧
        s.writeSnapshot p (overlay found h.dirty.keys h.records) ready = (.ok (), fs') := by
  obtain ⟨h', held', ⟨memory, rfl, -⟩ | ⟨p, path, ⟨-, rfl, rfl⟩ | ⟨-, found, ready, after, prepared,
    loaded, written, rest⟩⟩⟩ := Store.flush_cases run
  · obtain rfl := Option.some.inj (held.symm.trans held')
    exact .inr ⟨rfl, fun p path => absurd (memory.symm.trans path) nofun⟩
  · exact .inl ⟨rfl, rfl⟩
  · obtain rfl := Option.some.inj (held.symm.trans held')
    rw [load_eq, ← fresh_eq] at loaded
    obtain ⟨read, rfl⟩ := Prod.mk.inj loaded
    have own := sole.keys_overlay path held (by rw [prepared, read])
    rcases rest with ⟨-, rfl⟩ | ⟨other, -⟩
    · refine .inr ⟨rfl, fun q path' => ?_⟩
      obtain rfl := Option.some.inj (path.symm.trans path')
      exact ⟨found, ready, prepared, read, own, written⟩
    · exact absurd own other

/-- A flush of a store that nobody else writes leaves its records. -/
theorem Sole.flush (sole : s.Sole fs) (serves : s.Serves h) (run : s.flush fs = (.ok t, fs')) :
    ∃ h', t.Serves h' ∧ h'.records = h.records ∧ t.dimension = s.dimension := by
  rcases sole.flush_cases serves.1 run with ⟨rfl, -⟩ | ⟨rfl, -⟩
  · exact ⟨h, serves, rfl, rfl⟩
  · exact ⟨_, ⟨rfl, serves.2⟩, rfl, rfl⟩

/-- A flush leaves a store alone. -/
theorem Sole.flush_ok (sole : s.Sole fs) (sound : s.path ≠ none → fs.Sound)
    (run : s.flush fs = (.ok t, fs')) : t.Sole fs' := by
  obtain ⟨h, held, -⟩ := Store.flush_cases run
  rcases sole.flush_cases held run with ⟨rfl, rfl⟩ | ⟨rfl, wrote⟩
  · exact sole
  · intro p h' found' path held' again id
    obtain rfl := Option.some.inj held'
    change s.path = some p at path
    obtain ⟨found, ready, prepared, read, own, written⟩ := wrote p path
    have ready' := (prepare_settled (sound (by simp [path])) prepared).2.1 rfl
    have firm := firm_of_found ready'.sound ready'.parents
      (found_of_recordsOf (fresh_eq p _ ready ▸ read))
    rw [writeSnapshot_eq] at written
    have keys := Snapshot.keys_of_recordsFor (fresh_of_put ready' firm written again)
    rw [keys, own]
    exact (or_iff_right nofun).symm

/-- So does one that fails. -/
theorem Sole.flush_error (sole : s.Sole fs) (sound : s.path ≠ none → fs.Sound)
    (failed : s.flush fs = (.error e, fs')) : s.Sole fs' := by
  intro p h found' path held again id
  have sound' := sound (by simp [path])
  rcases Store.flush_error path failed with ⟨none_, -⟩ | ⟨h', held', -, failed | ⟨ready, prepared,
    rest⟩⟩
  · exact absurd (held.symm.trans none_) nofun
  · obtain ⟨-, -, stuck⟩ := prepare_settled sound' failed
    obtain ⟨e', stays⟩ := stuck nofun
    rw [stays] at again
    exact sole p h found' path held (by rw [failed, again]) id
  · obtain rfl := Option.some.inj (held.symm.trans held')
    have ready' := (prepare_settled sound' prepared).2.1 rfl
    rcases rest with failed | ⟨found, after, loaded, rest⟩
    · rw [load_eq] at failed
      obtain ⟨-, rfl⟩ := Prod.mk.inj failed
      rw [ready'.prepare_eq] at again
      exact sole p h found' path held (by rw [prepared, again]) id
    · rw [load_eq, ← fresh_eq] at loaded
      obtain ⟨read, rfl⟩ := Prod.mk.inj loaded
      have now : fresh p s.dimension (prepare p fs).2 = .ok found := by rw [prepared, read]
      have own := sole.keys_overlay path held now
      rcases rest with failed | ⟨-, other, -⟩
      · have firm := firm_of_found ready'.sound ready'.parents
          (found_of_recordsOf (fresh_eq p _ ready ▸ read))
        rw [writeSnapshot_eq] at failed
        rcases fresh_of_put_error ready' firm read failed again with written | rfl
        · have keys := Snapshot.keys_of_recordsFor written
          rw [keys, own]
          exact (or_iff_right_of_imp fun waits => (sole p h found path held now id).mpr
            (.inl waits)).symm
        · exact sole p h found' path held now id
      · exact absurd own other

/-! ## One handle alone -/

namespace Account

variable {p : Path} {dimension : Nat} {c : Call} {calls : List Call} {a : Account}
variable {x : Store × FileSystem}

/-- The records of a handle are those on disk with the pending ones over them. -/
def Mirrored (a : Account) (x : Store × FileSystem) : Prop :=
  ∀ h, x.1.holdings = some h → h.records = a.view

theorem Mirrored.step (kept : Kept p dimension a x)
    (mirrored : a.Mirrored x) :
    (a.note c (answer c x.1 x.2).1).Mirrored (answer c x.1 x.2).2 := by
  cases c with
  | query v k kind => exact mirrored
  | request q =>
    rcases run : perform q x.1 x.2 with ⟨e | _, t, after⟩
    · rw [answer_request run, eq_of_perform_error run]
      exact mirrored
    · rw [answer_request run]
      intro h held
      cases q with
      | init =>
        obtain ⟨index, done⟩ := kept.init_eq
        obtain ⟨same, -⟩ := Prod.mk.inj (done.symm.trans (attempt_ok run))
        obtain rfl := Except.ok.inj same
        obtain rfl := Option.some.inj held
        rfl
      | add b =>
        rcases tryAdd_cases b x.1 with ⟨u, added, done⟩ | ⟨e, -, failed⟩
        · rw [perform, done] at run
          obtain rfl := (Prod.mk.inj (Prod.mk.inj run).2).1
          obtain ⟨-, -, h₀, held₀, rfl⟩ := add_cases added
          obtain rfl := Option.some.inj held
          change h₀.records.insertAll b.entries = view ⟨a.disk, a.pending.insertAll b.entries⟩
          rw [view_insertAll, mirrored h₀ held₀]
        · rw [perform, failed] at run
          cases (Prod.mk.inj run).1
      | flush =>
        change h.records = a.view
        obtain ⟨h₀, held₀, ⟨path, -⟩ | ⟨q, path, ⟨-, rfl, -⟩ | ⟨-, found, ready, after', prepared,
          loaded, -, rest⟩⟩⟩ := flush_cases (attempt_ok run)
        · cases path.symm.trans kept.tracks.path
        · exact mirrored h held
        · obtain rfl := Option.some.inj (path.symm.trans kept.tracks.path)
          rcases rest with ⟨-, rfl⟩ | ⟨-, index, -, rfl⟩
          · obtain rfl := Option.some.inj held
            exact mirrored h₀ held₀
          · obtain rfl := Option.some.inj held
            exact (kept.tracks.merged_eq kept.carries held₀ prepared loaded).2
      | clear =>
        obtain ⟨h₀, -, -, -, -, rfl⟩ := clear_ok kept.tracks.path (attempt_ok run)
        obtain rfl := Option.some.inj held
        rfl
      | drop =>
        obtain rfl := (Prod.mk.inj (Prod.mk.inj run).2).1
        cases held

theorem Mirrored.session (word : dimension < wordSize) (fair : ∀ c ∈ calls, c.Fair)
    (kept : Kept p dimension a x) (mirrored : a.Mirrored x) :
    (a.after x calls).Mirrored (session x calls) := by
  induction calls generalizing a x with
  | nil => exact mirrored
  | cons c calls ih =>
    obtain ⟨first, rest⟩ := List.forall_mem_cons.mp fair
    exact ih rest (kept.step word first) (mirrored.step kept)

end Account

/-- After any session a handle that alone writes its snapshot is alone. -/
theorem sole_of_session {p : Path} {dimension : Nat} {metric : Metric} {files : FileSystem}
    {disk : Table Record} {calls : List Call} (word : dimension < wordSize)
    (carries : Carries dimension p disk files) (storable : Storable dimension disk)
    (fair : ∀ c ∈ calls, c.Fair)
    (reached : session (closed (some p) dimension metric, files) calls = (s, fs)) : s.Sole fs := by
  have start : Account.Kept p dimension ⟨disk, .empty⟩
      (closed (some p) dimension metric, files) := Account.kept_start carries storable
  have kept := start.session word fair
  have mirrored := Account.Mirrored.session word fair start nofun
  rw [reached] at kept mirrored
  intro q h found path held load id
  obtain rfl := Option.some.inj (path.symm.trans kept.tracks.path)
  rw [fresh_eq, kept.tracks.fits, kept.carries.locked] at load
  obtain rfl := Except.ok.inj load
  rw [mirrored h held, Account.view, Table.covered, Table.mem_keys_insertAll,
    (kept.tracks.ready h held).dirty]
  rfl

end Store

end CodeSearch
