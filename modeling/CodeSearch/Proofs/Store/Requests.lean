import CodeSearch.Indexing.Service
import CodeSearch.Proofs.Store.Document
import CodeSearch.Proofs.Store.Replace

/-! # Requests to a store with a snapshot

Beside the records on disk there are, for each handle, those that it was given since it last
read or wrote the snapshot. A request that succeeds settles what becomes of both, and one that
fails changes neither, as long as the files keep the snapshot.
-/

namespace CodeSearch

/-- What a handle can be asked for. A dropped handle may be opened again. -/
inductive Store.Request where
  | init
  | add (b : Batch)
  | flush
  | clear
  | drop

namespace Store.Request

/-- What a request that succeeds leaves on disk and pending. -/
def settle (disk pending : Table Record) : Store.Request → Table Record × Table Record
  | init => (disk, .empty)
  | add b => (disk, pending.insertAll b.entries)
  | flush => (disk.covered pending, .empty)
  | clear => (.empty, .empty)
  | drop => (disk, .empty)

/-- The numbers and the lines that are added can be written. -/
def Fair : Store.Request → Prop
  | add b => (∀ v ∈ b.vectors, ∀ x ∈ v, Json.ReadsBack x) ∧
      ∀ m ∈ b.metadatas, m.startLine < wordSize ∧ m.endLine < wordSize
  | _ => True

end Store.Request

namespace Store

variable {s t : Store} {fs fs' : FileSystem} {p : Path} {dimension : Nat}
variable {disk pending records : Table Record} {b : Batch} {r : Except StoreError Unit}

/-- One request to a store. -/
def perform : Request → Store → FileSystem → Except StoreError Unit × Store × FileSystem
  | .init, s, fs => attempt init s fs
  | .add b, s, fs => ((s.tryAdd b).1, (s.tryAdd b).2, fs)
  | .flush, s, fs => attempt flush s fs
  | .clear, s, fs => attempt clear s fs
  | .drop, s, fs => (.ok (), closed s.path s.dimension s.metric, fs)

/-- All records of a table can be stored. -/
def Storable (dimension : Nat) (records : Table Record) : Prop :=
  ∀ id r, records.get? id = some r → r.Storable dimension

/-- What a ready store has pending is dirty and among its records. -/
structure Tracked (dimension : Nat) (pending : Table Record) (h : Holdings) : Prop where
  fits : h.index.dimension = dimension
  dirty : ∀ id, id ∈ h.dirty.keys ↔ id ∈ pending.keys
  records : ∀ id r, pending.get? id = some r → h.records.get? id = some r

/-- A store has certain records pending. -/
structure Tracks (p : Path) (dimension : Nat) (pending : Table Record) (s : Store) : Prop where
  path : s.path = some p
  fits : s.dimension = dimension
  closed : s.holdings = none → pending = .empty
  ready : ∀ h, s.holdings = some h → Tracked dimension pending h
  storable : Storable dimension pending

theorem storable_empty : Storable dimension .empty := nofun

theorem Storable.covered (disk_ : Storable dimension disk) (pending_ : Storable dimension pending) :
    Storable dimension (disk.covered pending) :=
  Table.All.insertAll disk_ fun e listed => pending_ e.1 e.2 (Table.mem_entries_iff.mp listed)

theorem Storable.insertAll {es : List (String × Record)} (records_ : Storable dimension records)
    (added : ∀ e ∈ es, e.2.Storable dimension) : Storable dimension (records.insertAll es) :=
  Table.All.insertAll records_ added

theorem Storable.overlay {base top : Table Record} (base_ : Storable dimension base)
    (top_ : Storable dimension top) (ids : List String) :
    Storable dimension (overlay base ids top) :=
  all_overlay base_ top_ ids

/-- Records that can be stored are fair to add. -/
theorem fair_ofEntries {es : List (String × Record)} (storable : ∀ e ∈ es, e.2.Storable dimension) :
    (Request.add (.ofEntries es)).Fair := by
  constructor
  · intro v listed
    obtain ⟨e, inside, rfl⟩ := List.mem_map.mp listed
    exact (storable e inside).reads
  · intro m listed
    obtain ⟨e, inside, rfl⟩ := List.mem_map.mp listed
    exact ⟨(storable e inside).first, (storable e inside).last⟩

/-! ## Indexes -/

/-- An index that took some vectors has them and no others, and each had the right length. -/
theorem eq_of_upsertAll {x y : Index} {es : List (String × Embedding)}
    (ok : x.upsertAll es = .ok y) : y = { x with vectors := x.vectors.insertAll es } ∧
      ∀ e ∈ es, e.2.length = x.dimension := by
  induction es generalizing x with
  | nil =>
    obtain rfl := Except.ok.inj ok
    exact ⟨rfl, nofun⟩
  | cons e es ih =>
    change (x.upsert e.1 e.2 >>= fun x => x.upsertAll es) = .ok y at ok
    by_cases fits : e.2.length = x.dimension
    · have first : x.upsert e.1 e.2 = .ok { x with vectors := x.vectors.insert e.1 e.2 } := by
        simp [Index.upsert, Index.check, fits, Except.map]
      rw [first] at ok
      obtain ⟨rfl, rest⟩ := ih ok
      exact ⟨rfl, List.forall_mem_cons.mpr ⟨fits, rest⟩⟩
    · have first : x.upsert e.1 e.2 = .error (.dimension x.dimension e.2.length) := by
        simp [Index.upsert, Index.check, fits, Except.map]
      rw [first] at ok
      cases ok

theorem upsertAll_ok {x : Index} {es : List (String × Embedding)}
    (fits : ∀ e ∈ es, e.2.length = x.dimension) : ∃ y, x.upsertAll es = .ok y := by
  induction es generalizing x with
  | nil => exact ⟨x, rfl⟩
  | cons e es ih =>
    have first : x.upsert e.1 e.2 = .ok { x with vectors := x.vectors.insert e.1 e.2 } := by
      simp [Index.upsert, Index.check, fits e List.mem_cons_self, Except.map]
    obtain ⟨y, rest⟩ := ih (x := { x with vectors := x.vectors.insert e.1 e.2 })
      fun e he => fits e (List.mem_cons_of_mem _ he)
    refine ⟨y, ?_⟩
    change (x.upsert e.1 e.2 >>= fun x => x.upsertAll es) = .ok y
    rw [first]
    exact rest

theorem dimension_of_indexOf {index : Index} (ok : s.indexOf records = .ok index) :
    index.dimension = s.dimension := by
  rw [(eq_of_upsertAll ok).1]
  rfl

/-- Records whose vectors fit have an index. -/
theorem indexOf_of_lengths
    (lengths : ∀ id r, records.get? id = some r → r.vector.length = s.dimension) :
    ∃ index, s.indexOf records = .ok index := by
  refine upsertAll_ok fun e he => ?_
  obtain ⟨⟨id, r⟩, there, rfl⟩ := List.mem_map.mp he
  exact lengths id r (Table.mem_entries_iff.mp there)

/-- Records that can be stored have an index. -/
theorem indexOf_ok (storable : Storable s.dimension records) :
    ∃ index, s.indexOf records = .ok index :=
  indexOf_of_lengths fun id r there => (storable id r there).length

/-! ## Each request -/

variable {e : StoreError}

theorem init_eq (path : s.path = some p) : s.init fs =
    (do
      let records ← s.load p
      let index ← StoreAction.check (s.indexOf records)
      return { s with holdings := some ⟨records, index, .empty⟩ } : StoreAction Store) fs := by
  unfold init
  rw [path]

theorem init_of_load {index : Index} (path : s.path = some p)
    (loads : s.load p fs = (.ok records, fs)) (indexed : s.indexOf records = .ok index) :
    s.init fs = (.ok { s with holdings := some ⟨records, index, .empty⟩ }, fs) := by
  rw [init_eq path, StoreAction.bind_of_ok loads, indexed]
  rfl

theorem init_error (path : s.path = some p) (run : s.init fs = (.error e, fs')) : fs' = fs := by
  rw [init_eq path] at run
  rcases StoreAction.bind_error.mp run with failed | ⟨records, mid, loaded, run⟩
  · rw [load_eq] at failed
    exact (Prod.mk.inj failed).2.symm
  · rw [load_eq] at loaded
    obtain ⟨-, rfl⟩ := Prod.mk.inj loaded
    rcases StoreAction.bind_error.mp run with failed | ⟨index, after, -, done⟩
    · exact (Prod.mk.inj failed).2.symm
    · cases (Prod.mk.inj done).1

theorem init_ok (path : s.path = some p) (run : s.init fs = (.ok t, fs')) :
    fs' = fs ∧ ∃ records index, s.indexOf records = .ok index ∧
      t = { s with holdings := some ⟨records, index, .empty⟩ } := by
  rw [init_eq path] at run
  obtain ⟨records, mid, loaded, run⟩ := StoreAction.bind_ok.mp run
  rw [load_eq] at loaded
  obtain ⟨-, rfl⟩ := Prod.mk.inj loaded
  obtain ⟨index, after, checked, done⟩ := StoreAction.bind_ok.mp run
  obtain ⟨indexed, rfl⟩ := StoreAction.check_ok.mp checked
  obtain ⟨rfl, rfl⟩ := StoreAction.pure_ok.mp done
  exact ⟨rfl, records, index, indexed, rfl⟩

theorem flush_eq {h : Holdings} (path : s.path = some p) (held : s.holdings = some h)
    (waits : h.dirty.isEmpty = false) : s.flush fs =
      (do
        prepare p
        let found ← s.load p
        s.writeSnapshot p (overlay found h.dirty.keys h.records)
        if (overlay found h.dirty.keys h.records).keys = h.records.keys then
          return { s with holdings := some { h with dirty := .empty } }
        else
          let index ← StoreAction.check (s.indexOf (overlay found h.dirty.keys h.records))
          return { s with holdings := some ⟨overlay found h.dirty.keys h.records, index, .empty⟩ } :
        StoreAction Store) fs := by
  have checked : StoreAction.check s.ready fs = (.ok h, fs) := by
    rw [ready_ok.mpr held, StoreAction.check]
  rw [flush, StoreAction.bind_of_ok checked]
  simp only [path, waits, Bool.false_eq_true, if_false, prepare, bind_assoc]

/-- A flush that writes the ids of the store. -/
theorem flush_of_write {h : Holdings} {ready after : FileSystem} {found : Table Record}
    (path : s.path = some p) (held : s.holdings = some h) (waits : h.dirty.isEmpty = false)
    (prepared : prepare p fs = (.ok (), ready)) (loads : s.load p ready = (.ok found, ready))
    (written : s.writeSnapshot p (overlay found h.dirty.keys h.records) ready = (.ok (), after))
    (same : (overlay found h.dirty.keys h.records).keys = h.records.keys) :
    s.flush fs = (.ok { s with holdings := some { h with dirty := .empty } }, after) := by
  rw [flush_eq path held waits, StoreAction.bind_of_ok prepared, StoreAction.bind_of_ok loads,
    StoreAction.bind_of_ok written, if_pos same]
  rfl

/-- Everything that a flush can have done when it fails. -/
theorem flush_error (path : s.path = some p) (run : s.flush fs = (.error e, fs')) :
    (s.holdings = none ∧ fs' = fs) ∨ ∃ h, s.holdings = some h ∧ h.dirty.isEmpty = false ∧
      (prepare p fs = (.error e, fs') ∨ ∃ ready, prepare p fs = (.ok (), ready) ∧
        (s.load p ready = (.error e, fs') ∨ ∃ disk after, s.load p ready = (.ok disk, after) ∧
          (s.writeSnapshot p (overlay disk h.dirty.keys h.records) after = (.error e, fs') ∨
            s.writeSnapshot p (overlay disk h.dirty.keys h.records) after = (.ok (), fs') ∧
              (overlay disk h.dirty.keys h.records).keys ≠ h.records.keys ∧
                s.indexOf (overlay disk h.dirty.keys h.records) = .error e))) := by
  cases held : s.holdings with
  | none =>
    left
    rcases StoreAction.bind_error.mp run with failed | ⟨h, mid, checked, -⟩
    · exact ⟨rfl, (Prod.mk.inj failed).2.symm⟩
    · simp only [ready, held, StoreAction.check] at checked
      cases (Prod.mk.inj checked).1
  | some h =>
    cases waits : h.dirty.isEmpty with
    | true =>
      rw [flush, StoreAction.bind_of_ok (StoreAction.check_ok.mpr ⟨ready_ok.mpr held, rfl⟩)] at run
      simp only [path, waits, if_true] at run
      cases (Prod.mk.inj run).1
    | false =>
      refine .inr ⟨h, rfl, waits, ?_⟩
      rw [flush_eq path held waits] at run
      rcases StoreAction.bind_error.mp run with failed | ⟨_, ready, prepared, run⟩
      · exact .inl failed
      · refine .inr ⟨ready, prepared, ?_⟩
        rcases StoreAction.bind_error.mp run with failed | ⟨disk, after, loaded, run⟩
        · exact .inl failed
        · refine .inr ⟨disk, after, loaded, ?_⟩
          rcases StoreAction.bind_error.mp run with failed | ⟨_, written, wrote, run⟩
          · exact .inl failed
          · right
            split at run
            · cases (Prod.mk.inj run).1
            · rename_i other
              rcases StoreAction.bind_error.mp run with failed | ⟨index, _, -, done⟩
              · obtain rfl : written = fs' := (Prod.mk.inj failed).2
                exact ⟨wrote, other, (Prod.mk.inj failed).1⟩
              · cases (Prod.mk.inj done).1

theorem clear_eq (path : s.path = some p) :
    s.clear fs = (do
      let h ← StoreAction.check s.ready
      prepare p
      s.writeSnapshot p .empty
      return { s with holdings := some ⟨.empty, h.index.clear, .empty⟩ } : StoreAction Store)
        fs := by
  unfold clear
  simp only [path, prepare, bind_assoc]

/-- Everything that a clearance can have done when it succeeds. -/
theorem clear_ok (path : s.path = some p) (run : s.clear fs = (.ok t, fs')) :
    ∃ h ready, s.holdings = some h ∧ prepare p fs = (.ok (), ready) ∧
      s.writeSnapshot p .empty ready = (.ok (), fs') ∧
        t = { s with holdings := some ⟨.empty, h.index.clear, .empty⟩ } := by
  rw [clear_eq path] at run
  obtain ⟨h, mid, checked, run⟩ := StoreAction.bind_ok.mp run
  obtain ⟨ready, rfl⟩ := StoreAction.check_ok.mp checked
  obtain ⟨_, ready', prepared, run⟩ := StoreAction.bind_ok.mp run
  obtain ⟨_, after, written, done⟩ := StoreAction.bind_ok.mp run
  obtain ⟨rfl, rfl⟩ := StoreAction.pure_ok.mp done
  exact ⟨h, ready', ready_ok.mp ready, prepared, written, rfl⟩

/-- Everything that a clearance can have done when it fails. -/
theorem clear_error (path : s.path = some p) (run : s.clear fs = (.error e, fs')) :
    fs' = fs ∨ prepare p fs = (.error e, fs') ∨ ∃ ready, prepare p fs = (.ok (), ready) ∧
      s.writeSnapshot p .empty ready = (.error e, fs') := by
  rw [clear_eq path] at run
  rcases StoreAction.bind_error.mp run with failed | ⟨h, mid, checked, run⟩
  · exact .inl (Prod.mk.inj failed).2.symm
  · obtain ⟨-, rfl⟩ := StoreAction.check_ok.mp checked
    right
    rcases StoreAction.bind_error.mp run with failed | ⟨_, ready, prepared, run⟩
    · exact .inl failed
    · rcases StoreAction.bind_error.mp run with failed | ⟨_, after, -, done⟩
      · exact .inr ⟨ready, prepared, failed⟩
      · cases (Prod.mk.inj done).1

theorem attempt_ok {f : Store → StoreAction Store} (run : attempt f s fs = (.ok (), t, fs')) :
    f s fs = (.ok t, fs') := by
  unfold attempt at run
  split at run
  · rename_i t' after done
    obtain ⟨-, rest⟩ := Prod.mk.inj run
    obtain ⟨rfl, rfl⟩ := Prod.mk.inj rest
    exact done
  · cases (Prod.mk.inj run).1

theorem attempt_error {f : Store → StoreAction Store}
    (run : attempt f s fs = (.error e, t, fs')) : t = s ∧ f s fs = (.error e, fs') := by
  unfold attempt at run
  split at run
  · cases (Prod.mk.inj run).1
  · rename_i e' after failed
    obtain ⟨same, rest⟩ := Prod.mk.inj run
    obtain ⟨rfl, rfl⟩ := Prod.mk.inj rest
    cases same
    exact ⟨rfl, failed⟩

/-! ## What requests leave -/

theorem Tracked.overlay_eq {h : Holdings} (tracked : Tracked dimension pending h) :
    overlay disk h.dirty.keys h.records = disk.covered pending := by
  refine Table.ext_get? fun id => ?_
  rw [get?_overlay, Table.get?_covered]
  by_cases dirty : id ∈ h.dirty.keys
  · obtain ⟨r, there⟩ := Option.isSome_iff_exists.mp
      (Table.mem_keys_iff.mp ((tracked.dirty id).mp dirty))
    rw [if_pos dirty, there, tracked.records id r there]
  · have absent : pending.get? id = none := by
      cases there : pending.get? id with
      | none => rfl
      | some r =>
        exact absurd ((tracked.dirty id).mpr (Table.mem_keys_iff.mpr (by simp [there]))) dirty
    rw [if_neg dirty, absent]
    rfl

theorem Tracked.pending_eq {h : Holdings} (tracked : Tracked dimension pending h)
    (clean : h.dirty.isEmpty = true) : pending = .empty := by
  refine Table.ext_get? fun id => ?_
  cases there : pending.get? id with
  | none => rfl
  | some r =>
    have dirty := (tracked.dirty id).mpr (Table.mem_keys_iff.mpr (by simp [there]))
    rw [Table.isEmpty_iff.mp clean] at dirty
    cases dirty

/-- A store that has just read or written the snapshot has nothing pending. -/
theorem tracks_settled {h : Holdings} (path : s.path = some p) (fits : s.dimension = dimension)
    (index : h.index.dimension = dimension) (clean : h.dirty = .empty) :
    Tracks p dimension .empty { s with holdings := some h } := by
  refine ⟨path, fits, nofun, fun h' same => ?_, storable_empty⟩
  obtain rfl := Option.some.inj same
  refine ⟨index, fun id => by rw [clean]; rfl, nofun⟩

theorem storable_insertAll (pending_ : Storable dimension pending)
    (fair : (Request.add b).Fair) (fits : ∀ v ∈ b.vectors, v.length = dimension) :
    Storable dimension (pending.insertAll b.entries) := by
  refine pending_.insertAll fun e added => ?_
  have vector := Batch.mem_entries_vector added
  obtain ⟨first, last⟩ := fair.2 _ (Batch.mem_entries_metadata added)
  exact ⟨fits _ vector, fair.1 _ vector, first, last⟩

theorem Tracked.upserted {h : Holdings} (tracked : Tracked dimension pending h)
    (es : List (String × Record)) :
    Tracked dimension (pending.insertAll es) (h.upserted es) := by
  refine ⟨tracked.fits, fun id => ?_, fun id r there => ?_⟩
  · rw [Holdings.mem_dirty_upserted, Table.mem_keys_insertAll, tracked.dirty]
  · rw [Table.get?_insertAll] at there
    change (h.records.insertAll es).get? id = some r
    rw [Table.get?_insertAll]
    cases found : Table.find? id es.reverse with
    | some r' => simpa [found] using there
    | none =>
      rw [found] at there
      exact tracked.records id r there

theorem tracks_add (tracks : Tracks p dimension pending s) (fair : (Request.add b).Fair)
    (added : s.add b = .ok t) : Tracks p dimension (pending.insertAll b.entries) t := by
  obtain ⟨-, fits, h, held, rfl⟩ := add_cases added
  refine ⟨tracks.path, tracks.fits, nofun, fun h' same => ?_, ?_⟩
  · obtain rfl := Option.some.inj same
    exact (tracks.ready h held).upserted b.entries
  · exact storable_insertAll tracks.storable fair fun v hv => (fits v hv).trans tracks.fits

/-- Writing records that can be stored puts them on disk, or it fails and leaves the disk. -/
theorem carries_write {ready : FileSystem} (word : dimension < wordSize)
    (fits : s.dimension = dimension) (storable : Storable dimension records)
    (carries : Carries dimension p disk fs) (prepared : prepare p fs = (.ok (), ready))
    (run : s.writeSnapshot p records ready = (r, fs')) :
    (r ≠ .ok () → Carries dimension p disk fs') ∧
      (r = .ok () → Carries dimension p records fs') := by
  rw [writeSnapshot_eq, fits] at run
  obtain ⟨failed, done⟩ := carries.put prepared run
  exact ⟨failed, fun ok => done ok (Snapshot.recordsFor_encode word storable)⟩

/-- A flush writes what is pending over what is on disk. -/
theorem Tracks.merged_eq {h : Holdings} {ready after : FileSystem} {found : Table Record}
    (tracks : Tracks p dimension pending s) (carries : Carries dimension p disk fs)
    (held : s.holdings = some h) (prepared : prepare p fs = (.ok (), ready))
    (loaded : s.load p ready = (.ok found, after)) :
    after = ready ∧ overlay found h.dirty.keys h.records = disk.covered pending := by
  have locked := carries.locked
  rw [prepared] at locked
  rw [load_eq, tracks.fits] at loaded
  obtain ⟨same, rfl⟩ := Prod.mk.inj loaded
  obtain rfl := Except.ok.inj (locked.symm.trans same)
  exact ⟨rfl, (tracks.ready h held).overlay_eq⟩

theorem flush_ok_carries (word : dimension < wordSize) (tracks : Tracks p dimension pending s)
    (carries : Carries dimension p disk fs) (storable : Storable dimension disk)
    (run : s.flush fs = (.ok t, fs')) :
    Tracks p dimension .empty t ∧ Carries dimension p (disk.covered pending) fs' := by
  obtain ⟨h, held, ⟨path, -⟩ | ⟨q, path, ⟨clean, rfl, rfl⟩ | ⟨-, disk', ready, after, prepared,
    loaded, written, done⟩⟩⟩ := flush_cases run
  · exact absurd (path.symm.trans tracks.path) nofun
  · have none_ := (tracks.ready h held).pending_eq clean
    rw [none_, Table.covered_empty]
    exact ⟨none_ ▸ tracks, carries⟩
  · obtain rfl := Option.some.inj (path.symm.trans tracks.path)
    have tracked := tracks.ready h held
    obtain ⟨rfl, merged⟩ := tracks.merged_eq carries held prepared loaded
    rw [merged] at written done
    refine ⟨?_, (carries_write word tracks.fits (storable.covered tracks.storable) carries prepared
      written).2 rfl⟩
    rcases done with ⟨-, rfl⟩ | ⟨-, index, indexed, rfl⟩
    · exact tracks_settled tracks.path tracks.fits tracked.fits rfl
    · have own := dimension_of_indexOf indexed
      exact tracks_settled tracks.path tracks.fits (own.trans tracks.fits) rfl

theorem flush_error_carries (word : dimension < wordSize) (tracks : Tracks p dimension pending s)
    (carries : Carries dimension p disk fs) (storable : Storable dimension disk)
    (run : s.flush fs = (.error e, fs')) : Carries dimension p disk fs' := by
  rcases flush_error tracks.path run with ⟨-, rfl⟩ | ⟨h, held, -, failed | ⟨ready, prepared,
    failed | ⟨disk', after, loaded, rest⟩⟩⟩
  · exact carries
  · exact carries.prepare failed
  · rw [load_eq] at failed
    obtain ⟨-, rfl⟩ := Prod.mk.inj failed
    exact carries.prepare prepared
  · obtain ⟨rfl, merged⟩ := tracks.merged_eq carries held prepared loaded
    have stored := storable.covered tracks.storable
    rw [merged] at rest
    rcases rest with failed | ⟨-, -, failed⟩
    · exact (carries_write word tracks.fits stored carries prepared failed).1 nofun
    · obtain ⟨index, indexed⟩ := indexOf_ok (tracks.fits ▸ stored)
      exact absurd (indexed.symm.trans failed) nofun

theorem perform_add (added : s.add b = .ok t) : perform (.add b) s fs = (.ok (), t, fs) := by
  simp [perform, tryAdd, added]

/-- A request that succeeds leaves what it should on disk and pending. -/
theorem perform_ok {q : Request} (word : dimension < wordSize) (fair : q.Fair)
    (tracks : Tracks p dimension pending s) (carries : Carries dimension p disk fs)
    (storable : Storable dimension disk) (run : perform q s fs = (.ok (), t, fs')) :
    Tracks p dimension (q.settle disk pending).2 t ∧
      Carries dimension p (q.settle disk pending).1 fs' ∧
        Storable dimension (q.settle disk pending).1 := by
  cases q with
  | init =>
    obtain ⟨rfl, records, index, indexed, rfl⟩ := init_ok tracks.path (attempt_ok run)
    have fits := (dimension_of_indexOf indexed).trans tracks.fits
    exact ⟨tracks_settled tracks.path tracks.fits fits rfl, carries, storable⟩
  | add b =>
    cases added : s.add b with
    | error e =>
      unfold perform tryAdd at run
      simp only [added] at run
      cases (Prod.mk.inj run).1
    | ok t' =>
      obtain ⟨-, rest⟩ := Prod.mk.inj ((perform_add added).symm.trans run)
      obtain ⟨rfl, rfl⟩ := Prod.mk.inj rest
      exact ⟨tracks_add tracks fair added, carries, storable⟩
  | flush =>
    obtain ⟨tracks', carries'⟩ := flush_ok_carries word tracks carries storable (attempt_ok run)
    exact ⟨tracks', carries', storable.covered tracks.storable⟩
  | clear =>
    obtain ⟨h, ready, held, prepared, written, rfl⟩ := clear_ok tracks.path (attempt_ok run)
    have fits : h.index.clear.dimension = dimension := (tracks.ready h held).fits
    exact ⟨tracks_settled tracks.path tracks.fits fits rfl,
      (carries_write word tracks.fits storable_empty carries prepared written).2 rfl,
      storable_empty⟩
  | drop =>
    obtain ⟨-, rest⟩ := Prod.mk.inj run
    obtain ⟨rfl, rfl⟩ := Prod.mk.inj rest
    exact ⟨⟨tracks.path, tracks.fits, fun _ => rfl, nofun, storable_empty⟩, carries, storable⟩

/-- A request that fails leaves the store as it was, and the records on disk. -/
theorem perform_error {q : Request} (word : dimension < wordSize)
    (tracks : Tracks p dimension pending s) (carries : Carries dimension p disk fs)
    (storable : Storable dimension disk) (run : perform q s fs = (.error e, t, fs')) :
    t = s ∧ Carries dimension p disk fs' := by
  cases q with
  | init =>
    obtain ⟨rfl, failed⟩ := attempt_error run
    obtain rfl := init_error tracks.path failed
    exact ⟨rfl, carries⟩
  | add b =>
    cases added : s.add b with
    | error e =>
      unfold perform tryAdd at run
      simp only [added] at run
      obtain ⟨-, rest⟩ := Prod.mk.inj run
      obtain ⟨rfl, rfl⟩ := Prod.mk.inj rest
      exact ⟨rfl, carries⟩
    | ok t' => cases (Prod.mk.inj ((perform_add added).symm.trans run)).1
  | flush =>
    obtain ⟨rfl, failed⟩ := attempt_error run
    exact ⟨rfl, flush_error_carries word tracks carries storable failed⟩
  | clear =>
    obtain ⟨rfl, failed⟩ := attempt_error run
    rcases clear_error tracks.path failed with rfl | failed | ⟨ready, prepared, failed⟩
    · exact ⟨rfl, carries⟩
    · exact ⟨rfl, carries.prepare failed⟩
    · exact ⟨rfl, (carries_write word tracks.fits storable_empty carries prepared failed).1 nofun⟩
  | drop => cases (Prod.mk.inj run).1

end Store

end CodeSearch
