import CodeSearch.Proofs.Store.Agreement
import CodeSearch.Proofs.Store.Found

/-! # What stores may contain

A property of records under their ids that holds of all that is added to handles of one snapshot
holds of all that they ever contain and of all that is ever read from it, whatever requests are
made and however they end.
-/

namespace CodeSearch

namespace Store

variable {holds holds' : String → Record → Prop} {p : Path} {fs fs' g h : FileSystem}
variable {s t : Store} {b c : Bytes} {r : Except StoreError Unit} {records : Table Record}
variable {dimension : Nat}

/-- The property holds of all records that a store of any dimension reads from some bytes. -/
def Bears (holds : String → Record → Prop) (b : Bytes) : Prop :=
  ∀ dimension records, Snapshot.recordsFor dimension b = .ok records → records.All holds

theorem Bears.mono (weaker : ∀ id r, holds id r → holds' id r) (bears : Bears holds b) :
    Bears holds' b :=
  fun dimension records read => (bears dimension records read).mono weaker

/-- Nothing is read from no bytes. -/
theorem bears_nil : Bears holds [] := by
  intro dimension records read
  cases read

theorem recordsFor_inj {m n : Nat} {records records' : Table Record}
    (read : Snapshot.recordsFor m b = .ok records)
    (read' : Snapshot.recordsFor n b = .ok records') : records = records' := by
  unfold Snapshot.recordsFor at read read'
  cases decoded : Snapshot.decode? b with
  | none =>
    rw [decoded] at read
    cases read
  | some snapshot =>
    simp only [decoded] at read read'
    split at read
    · cases read
    · split at read
      · cases read
      · split at read'
        · cases read'
        · split at read'
          · cases read'
          · exact (Except.ok.inj read).symm.trans (Except.ok.inj read')

theorem bears_encode {metric : Metric} (word : dimension < wordSize)
    (storable : ∀ id r, holds id r → ∃ n, r.Storable n) (all : records.All holds) :
    Bears holds (Snapshot.encode ⟨StoreError.schemaVersion, dimension, metric, records⟩) := by
  intro n found read
  have own : Snapshot.recordsFor dimension
      (Snapshot.encode ⟨StoreError.schemaVersion, dimension, metric, records⟩) = .ok records :=
    Snapshot.recordsFor_encode_of_each word fun id r there => storable id r (all id r there)
  exact recordsFor_inj own read ▸ all

/-- The property holds of all records that are found, also after the lock was opened, and no link
comes between a snapshot and the next one. -/
structure Guarded (holds : String → Record → Prop) (p : Path) (fs : FileSystem) : Prop where
  sound : fs.Sound
  now : ∀ b, fs.entry? p = .ok (.file b) → Bears holds b
  locked : ∀ b, FileSystem.entry? (prepare p fs).2 p = .ok (.file b) → Bears holds b
  firm : ∀ g, prepare p fs = (.ok (), g) → Firm p g

namespace Guarded

theorem mono (weaker : ∀ id r, holds id r → holds' id r) (guarded : Guarded holds p fs) :
    Guarded holds' p fs :=
  { guarded with
    now := fun b found => (guarded.now b found).mono weaker
    locked := fun b found => (guarded.locked b found).mono weaker }

/-- What a load finds. -/
theorem load (guarded : Guarded holds p fs) (loaded : s.load p fs = (.ok records, fs')) :
    fs' = fs ∧ records.All holds := by
  rw [load_eq] at loaded
  obtain ⟨read, rfl⟩ := Prod.mk.inj loaded
  refine ⟨rfl, ?_⟩
  rcases found_of_recordsOf read with missing | ⟨b, found⟩
  · rw [missing] at read
    rw [← Except.ok.inj read]
    exact Table.all_empty
  · rw [found] at read
    exact guarded.now b found _ _ read

theorem prepare (guarded : Guarded holds p fs) (run : prepare p fs = (r, g)) :
    Guarded holds p g := by
  obtain ⟨sound, ready, stuck⟩ := prepare_settled guarded.sound run
  have found := guarded.locked
  rw [run] at found
  by_cases done : r = .ok ()
  · subst done
    have again := (ready rfl).prepare_eq
    refine ⟨sound, found, by rwa [again], fun g' run' => ?_⟩
    obtain ⟨-, rfl⟩ := Prod.mk.inj (again.symm.trans run')
    exact guarded.firm _ run
  · obtain ⟨e, again⟩ := stuck done
    refine ⟨sound, found, by rwa [again], fun g' run' => ?_⟩
    exact absurd (Prod.mk.inj (again.symm.trans run')).1 nofun

/-- Where the directory of a snapshot is there, opening the lock brings no records. -/
theorem of_parents (sound : fs.Sound) (parents : fs.HasParent p) (firm : Firm p fs)
    (now : ∀ b, fs.entry? p = .ok (.file b) → Bears holds b) : Guarded holds p fs := by
  have locks : Firm p (Store.prepare p fs).2 ∧
      ∀ b, FileSystem.entry? (Store.prepare p fs).2 p = .ok (.file b) → Bears holds b := by
    rw [prepare_of_parents sound parents]
    rcases run : lock p fs with ⟨r, g⟩
    rcases StoreAction.change_cases run with ⟨-, touched⟩ | ⟨e, -, -, rfl⟩
    · rcases FileSystem.touch_cases touched with rfl | ⟨q, -, absent, rfl⟩
      · exact ⟨firm, now⟩
      · have plain : fs.Plain q := ⟨by simp [absent], by simp [absent]⟩
        refine ⟨firm.set plain, fun b found => ?_⟩
        rcases FileSystem.found_of_set plain found with rfl | before
        · exact bears_nil
        · exact now b before
    · exact ⟨firm, now⟩
  refine ⟨sound, now, locks.2, fun g run => ?_⟩
  rw [run] at locks
  exact locks.1

theorem put (guarded : Guarded holds p fs) (ready : Store.prepare p fs = (.ok (), g))
    (bears : Bears holds c) (run : put p c g = (r, h)) : Guarded holds p h := by
  have prepared := (prepare_settled guarded.sound ready).2.1 rfl
  obtain ⟨sound, parents, firm, -, found⟩ := prepared.put (guarded.firm g ready) run
  refine of_parents sound parents firm fun b there => ?_
  rcases found b there with rfl | before
  · exact bears
  · have locked := guarded.locked b
    rw [ready] at locked
    exact locked before

theorem write (guarded : Guarded holds p fs) (word : s.dimension < wordSize)
    (storable : ∀ id r, holds id r → ∃ n, r.Storable n)
    (ready : Store.prepare p fs = (.ok (), g)) (all : records.All holds)
    (run : s.writeSnapshot p records g = (r, h)) : Guarded holds p h := by
  rw [writeSnapshot_eq] at run
  exact guarded.put ready (bears_encode word storable all) run

end Guarded

/-! ## Requests -/

theorem init_records (run : s.init fs = (.ok t, fs')) : fs' = fs ∧
    (t.records = .empty ∨ ∃ p, s.path = some p ∧ s.load p fs = (.ok t.records, fs)) := by
  rcases path : s.path with _ | p
  · simp only [init, path] at run
    obtain ⟨records, mid, pure_, run⟩ := StoreAction.bind_ok.mp run
    obtain ⟨rfl, rfl⟩ := StoreAction.pure_ok.mp pure_
    obtain ⟨index, after, checked, done⟩ := StoreAction.bind_ok.mp run
    obtain ⟨-, rfl⟩ := StoreAction.check_ok.mp checked
    obtain ⟨rfl, rfl⟩ := StoreAction.pure_ok.mp done
    exact ⟨rfl, .inl rfl⟩
  · rw [init_eq path] at run
    obtain ⟨records, mid, loaded, run⟩ := StoreAction.bind_ok.mp run
    obtain rfl : fs = mid := by
      rw [load_eq] at loaded
      exact (Prod.mk.inj loaded).2
    obtain ⟨index, after, checked, done⟩ := StoreAction.bind_ok.mp run
    obtain ⟨-, rfl⟩ := StoreAction.check_ok.mp checked
    obtain ⟨rfl, rfl⟩ := StoreAction.pure_ok.mp done
    exact ⟨rfl, .inr ⟨p, rfl, loaded⟩⟩

theorem records_of_held {h : Holdings} (held : s.holdings = some h) : s.records = h.records := by
  rw [records, held]

section Requests

/- Only what is written has to be read again. -/
variable (word : ∀ p, s.path = some p → s.dimension < wordSize)
variable (storable : ∀ p, s.path = some p → ∀ id r, holds id r → ∃ n, r.Storable n)
variable (all : s.records.All holds) (guarded : ∀ p, s.path = some p → Guarded holds p fs)
include word storable all guarded

theorem contents_of_flush_ok (run : s.flush fs = (.ok t, fs')) :
    t.records.All holds ∧ ∀ p, s.path = some p → Guarded holds p fs' := by
  obtain ⟨h, held, ⟨-, rfl, rfl⟩ | ⟨p, path, ⟨-, rfl, rfl⟩ | ⟨-, disk, ready, after, prepared,
    loaded, written, rest⟩⟩⟩ := flush_cases run
  · exact ⟨records_of_held held ▸ all, guarded⟩
  · exact ⟨all, guarded⟩
  · obtain ⟨rfl, disk_⟩ := ((guarded p path).prepare prepared).load loaded
    have merged : (overlay disk h.dirty.keys h.records).All holds :=
      all_overlay disk_ (records_of_held held ▸ all) _
    refine ⟨?_, fun q path' => ?_⟩
    · rcases rest with ⟨-, rfl⟩ | ⟨-, index, -, rfl⟩
      · exact records_of_held held ▸ all
      · exact merged
    · obtain rfl := Option.some.inj (path.symm.trans path')
      exact (guarded p path).write (word p path) (storable p path) prepared merged written

theorem contents_of_flush_error {e : StoreError} (run : s.flush fs = (.error e, fs')) :
    ∀ p, s.path = some p → Guarded holds p fs' := by
  intro p path
  rcases flush_error path run with ⟨-, rfl⟩ | ⟨h, held, -, failed | ⟨ready, prepared, failed |
    ⟨disk, after, loaded, rest⟩⟩⟩
  · exact guarded p path
  · exact (guarded p path).prepare failed
  · rw [load_eq] at failed
    obtain ⟨-, rfl⟩ := Prod.mk.inj failed
    exact (guarded p path).prepare prepared
  · obtain ⟨rfl, disk_⟩ := ((guarded p path).prepare prepared).load loaded
    have merged : (overlay disk h.dirty.keys h.records).All holds :=
      all_overlay disk_ (records_of_held held ▸ all) _
    rcases rest with written | ⟨written, -, -⟩
    · exact (guarded p path).write (word p path) (storable p path) prepared merged written
    · exact (guarded p path).write (word p path) (storable p path) prepared merged written

omit all in
theorem contents_of_clear_ok (run : s.clear fs = (.ok t, fs')) :
    t.records.All holds ∧ ∀ p, s.path = some p → Guarded holds p fs' := by
  obtain ⟨h, -, rfl⟩ := clear_cases run
  refine ⟨Table.all_empty, fun p path => ?_⟩
  obtain ⟨-, ready, -, prepared, written, -⟩ := clear_ok path run
  exact (guarded p path).write (word p path) (storable p path) prepared Table.all_empty written

omit all in
theorem contents_of_clear_error {e : StoreError} (run : s.clear fs = (.error e, fs')) :
    ∀ p, s.path = some p → Guarded holds p fs' := by
  intro p path
  rcases clear_error path run with rfl | failed | ⟨ready, prepared, written⟩
  · exact guarded p path
  · exact (guarded p path).prepare failed
  · exact (guarded p path).write (word p path) (storable p path) prepared Table.all_empty written

/-- A request that adds nothing brings no other records, here or on disk, however it ends. -/
theorem contents_of_perform {q : Request} (quiet : ∀ b, q ≠ .add b)
    (run : perform q s fs = (r, t, fs')) :
    t.records.All holds ∧ ∀ p, s.path = some p → Guarded holds p fs' := by
  cases r with
  | ok _ =>
    cases q with
    | add b => exact absurd rfl (quiet b)
    | init =>
      obtain ⟨rfl, none_ | ⟨p, path, loaded⟩⟩ := init_records (attempt_ok run)
      · exact ⟨none_ ▸ Table.all_empty, guarded⟩
      · exact ⟨((guarded p path).load loaded).2, guarded⟩
    | flush => exact contents_of_flush_ok word storable all guarded (attempt_ok run)
    | clear => exact contents_of_clear_ok word storable guarded (attempt_ok run)
    | drop =>
      obtain ⟨-, rest⟩ := Prod.mk.inj run
      obtain ⟨rfl, rfl⟩ := Prod.mk.inj rest
      exact ⟨Table.all_empty, guarded⟩
  | error e =>
    obtain rfl := eq_of_perform_error run
    refine ⟨all, ?_⟩
    cases q with
    | add b => exact absurd rfl (quiet b)
    | init =>
      intro p path
      rw [init_error path (attempt_error run).2]
      exact guarded p path
    | flush => exact contents_of_flush_error word storable all guarded (attempt_error run).2
    | clear => exact contents_of_clear_error word storable guarded (attempt_error run).2
    | drop => cases (Prod.mk.inj run).1

end Requests

/-! ## Before anything is added -/

/-- No records are found on disk, also after the lock was opened, and then no directory is in place
of a snapshot. -/
structure Barren (p : Path) (fs : FileSystem) : Prop where
  sound : fs.Sound
  now : ∀ dimension records, fresh p dimension fs = .ok records → records = .empty
  locked : ∀ dimension records, fresh p dimension (prepare p fs).2 = .ok records → records = .empty
  vacant : ∀ g, prepare p fs = (.ok (), g) →
    g.entry? p = .error .missing ∨ ∃ b, g.entry? p = .ok (.file b)

theorem Barren.guarded (barren : Barren p fs) : Guarded (fun _ _ => False) p fs := by
  have bears : ∀ g : FileSystem, (∀ dimension records, fresh p dimension g = .ok records →
      records = .empty) → ∀ b, g.entry? p = .ok (.file b) → Bears (fun _ _ => False) b := by
    intro g none_ b found dimension records read
    have loads : fresh p dimension g = .ok records := by
      rw [fresh_eq, found]
      exact read
    rw [none_ dimension records loads]
    exact Table.all_empty
  refine ⟨barren.sound, bears fs barren.now, bears _ barren.locked, fun g run => ?_⟩
  have prepared := (prepare_settled barren.sound run).2.1 rfl
  exact firm_of_found prepared.sound prepared.parents (barren.vacant g run)

theorem Vacant.barren (vacant : Vacant p fs) : Barren p fs := by
  have none_ : ∀ g : FileSystem, Vacant p g → ∀ dimension records,
      fresh p dimension g = .ok records → records = .empty := by
    intro g vacant dimension records read
    rw [fresh_eq, vacant.missing] at read
    exact (Except.ok.inj read).symm
  exact ⟨vacant.sound, none_ fs vacant, none_ _ (vacant.prepare rfl),
    fun g run => .inl (vacant.prepare run).missing⟩

end Store

end CodeSearch
