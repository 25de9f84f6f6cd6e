import CodeSearch.Proofs.Store.Components
import CodeSearch.Proofs.Store.Failures

/-! # Opening again what was flushed

A flush writes whatever was added, but a component that is not finite is written as null, and the
snapshot cannot be read again then. If all components are finite, new handles find all ids, and the
handle that wrote goes on; otherwise no handle opens the snapshot, and none that has something
pending gets it flushed.
-/

namespace CodeSearch

namespace Store

variable {s t : Store} {fs fs' g : FileSystem} {p : Path} {dimension : Nat} {metric : Metric}
variable {h : Holdings} {q : Request} {b : Batch} {batches : List Batch} {e : StoreError}
variable {records D : Table Record} {r : Except StoreError Unit}

open Snapshot (Durable)

/-! ## What goes on for ever -/

namespace Request

/-- Requests that a store should go on with: batches with finite components only that fit, and
flushes. -/
def Welcome (dimension : Nat) : Request → Prop
  | add b => b.isEven = true ∧
      (∀ v ∈ b.vectors, v.length = dimension ∧ ∀ x ∈ v, x.isFinite = true) ∧
        ∀ m ∈ b.metadatas, m.startLine < wordSize ∧ m.endLine < wordSize
  | flush => True
  | _ => False

end Request

/-- Requests to a store, one after the other, with their results. -/
def outcomes : Store → FileSystem → List Request → List (Request × Except StoreError Unit)
  | _, _, [] => []
  | s, fs, q :: qs =>
    (q, (perform q s fs).1) :: outcomes (perform q s fs).2.1 (perform q s fs).2.2 qs

/-- A request has succeeded, or it was a flush and the files failed. -/
def Served (x : Request × Except StoreError Unit) : Prop :=
  x.2 = .ok () ∨ x.1 = .flush ∧ ∃ cause, x.2 = .error (.files cause)

/-- A handle that is ready, over a snapshot that is read; what both have can be read again. -/
structure Lasting (p : Path) (dimension : Nat) (s : Store) (fs : FileSystem) : Prop where
  path : s.path = some p
  fits : s.dimension = dimension
  held : ∃ h, s.Serves h ∧ Durable dimension h.records
  disk : ∃ D, Carries dimension p D fs ∧ Durable dimension D

theorem durable_entries (welcome : (Request.add b).Welcome dimension) :
    ∀ e ∈ b.entries, e.2.Durable dimension := by
  obtain ⟨-, vectors, lines⟩ := welcome
  intro e listed
  obtain ⟨length, finite⟩ := vectors _ (Batch.mem_entries_vector listed)
  obtain ⟨first, last⟩ := lines _ (Batch.mem_entries_metadata listed)
  exact ⟨length, finite, first, last⟩

theorem Lasting.add (lasting : Lasting p dimension s fs)
    (welcome : (Request.add b).Welcome dimension) :
    ∃ t, s.add b = .ok t ∧ Lasting p dimension t fs := by
  obtain ⟨path, fits, ⟨h, serves, durable⟩, disk⟩ := lasting
  have lengths : ∀ v ∈ b.vectors, v.length = s.dimension :=
    fun v listed => (welcome.2.1 v listed).1.trans fits.symm
  refine ⟨_, add_eq_ok serves welcome.1 lengths, path, fits, ?_, disk⟩
  refine ⟨h.upserted b.entries, ⟨rfl, serves.2⟩, ?_⟩
  exact Table.All.insertAll durable (durable_entries welcome)

/-- Writing records that can be read again leaves such records, whether it succeeds or not. -/
theorem durable_write (word : dimension < wordSize) (fits : s.dimension = dimension)
    (durable : Durable dimension records)
    (disk : ∃ D, Carries dimension p D fs ∧ Durable dimension D)
    (prepared : prepare p fs = (.ok (), g)) (run : s.writeSnapshot p records g = (r, fs')) :
    ∃ D, Carries dimension p D fs' ∧ Durable dimension D := by
  obtain ⟨D, carries, durable'⟩ := disk
  rw [writeSnapshot_eq, fits] at run
  obtain ⟨again, reads, -, durable''⟩ : ∃ again, Snapshot.recordsFor dimension
      (Snapshot.encode ⟨StoreError.schemaVersion, dimension, s.metric, records⟩) = .ok again ∧
        again.keys = records.keys ∧ Durable dimension again := durable.recordsFor_encode word
  have wrote : (r ≠ .ok () → Carries dimension p D fs') ∧
      (r = .ok () → Carries dimension p again fs') := by
    obtain ⟨failed, done⟩ := carries.put prepared run
    exact ⟨failed, fun ok => done ok reads⟩
  by_cases ok : r = .ok ()
  · exact ⟨again, wrote.2 ok, durable''⟩
  · exact ⟨D, wrote.1 ok, durable'⟩

/-- After it has opened the lock, a lasting handle reads the snapshot. -/
theorem Carries.load_eq (carries : Carries dimension p D fs) (fits : s.dimension = dimension)
    (prepared : Store.prepare p fs = (.ok (), g)) : s.load p g = (.ok D, g) := by
  have locked := carries.locked
  rw [prepared] at locked
  rw [Store.load_eq, fits, locked]

theorem Carries.of_load {found : Table Record} (carries : Carries dimension p D fs)
    (fits : s.dimension = dimension) (prepared : Store.prepare p fs = (.ok (), g))
    (loaded : s.load p g = (.ok found, fs')) : found = D ∧ fs' = g := by
  rw [carries.load_eq fits prepared] at loaded
  obtain ⟨same, rfl⟩ := Prod.mk.inj loaded
  exact ⟨(Except.ok.inj same).symm, rfl⟩

/-- A handle that opens the snapshot reads the records too. -/
theorem Carries.loads (carries : Carries dimension p D fs) :
    (closed (some p) dimension metric).load p fs = (.ok D, fs) := by
  rw [Store.load_eq]
  exact congrArg (·, fs) carries.now

theorem Lasting.flush_ok (word : dimension < wordSize) (lasting : Lasting p dimension s fs)
    (run : s.flush fs = (.ok t, fs')) : Lasting p dimension t fs' := by
  obtain ⟨path, fits, ⟨h, serves, durable⟩, disk⟩ := lasting
  obtain ⟨h', held, ⟨inMemory, -⟩ | ⟨q, own, ⟨-, rfl, rfl⟩ | ⟨-, found, ready, after, prepared,
    loaded, written, rest⟩⟩⟩ := flush_cases run
  · exact absurd (path.symm.trans inMemory) nofun
  · exact ⟨path, fits, ⟨h, serves, durable⟩, disk⟩
  · obtain rfl := Option.some.inj (path.symm.trans own)
    obtain rfl := Option.some.inj (serves.1.symm.trans held)
    obtain ⟨D, carries, durable'⟩ := disk
    obtain ⟨rfl, rfl⟩ := carries.of_load fits prepared loaded
    have merged := all_overlay durable' durable h.dirty.keys
    have disk' := durable_write word fits merged ⟨_, carries, durable'⟩ prepared written
    rcases rest with ⟨-, rfl⟩ | ⟨-, index, indexed, rfl⟩
    · exact ⟨path, fits, ⟨_, ⟨rfl, serves.2⟩, durable⟩, disk'⟩
    · exact ⟨path, fits, ⟨_, ⟨rfl, dimension_of_indexOf indexed⟩, merged⟩, disk'⟩

theorem Lasting.flush_error (word : dimension < wordSize) (lasting : Lasting p dimension s fs)
    (run : s.flush fs = (.error e, fs')) :
    (∃ cause, e = .files cause) ∧ Lasting p dimension s fs' := by
  obtain ⟨path, fits, ⟨h, serves, durable⟩, D, carries, durable'⟩ := lasting
  rcases Store.flush_error path run with ⟨closed, -⟩ | ⟨h', held, -, failed | ⟨ready, prepared,
    failed | ⟨found, after, loaded, rest⟩⟩⟩
  · exact absurd (closed.symm.trans serves.1) nofun
  · exact ⟨cause_of_prepare failed, path, fits, ⟨h, serves, durable⟩, D, carries.prepare failed,
      durable'⟩
  · exact absurd ((carries.load_eq fits prepared).symm.trans failed) nofun
  · obtain rfl := Option.some.inj (serves.1.symm.trans held)
    obtain ⟨rfl, rfl⟩ := carries.of_load fits prepared loaded
    have merged := all_overlay durable' durable h.dirty.keys
    rcases rest with failed | ⟨-, -, refused⟩
    · have disk' := durable_write word fits merged ⟨_, carries, durable'⟩ prepared failed
      exact ⟨cause_of_writeSnapshot failed, path, fits, ⟨h, serves, durable⟩, disk'⟩
    · obtain ⟨index, indexed⟩ := indexOf_of_lengths (s := s)
        fun id r there => (merged id r there).length.trans fits.symm
      exact absurd (indexed.symm.trans refused) nofun

/-- A request that is welcome is served, and the handle lasts. -/
theorem Lasting.step (word : dimension < wordSize) (lasting : Lasting p dimension s fs)
    (welcome : q.Welcome dimension) : Served (q, (perform q s fs).1) ∧
      Lasting p dimension (perform q s fs).2.1 (perform q s fs).2.2 := by
  cases q with
  | add b =>
    obtain ⟨t, added, lasting'⟩ := lasting.add welcome
    rw [perform_add added]
    exact ⟨.inl rfl, lasting'⟩
  | flush =>
    rcases attempt_cases flush s fs with ⟨t, after, run, done⟩ | ⟨e, after, run, failed⟩
    · rw [perform, done]
      exact ⟨.inl rfl, lasting.flush_ok word run⟩
    · obtain ⟨⟨cause, rfl⟩, lasting'⟩ := lasting.flush_error word run
      rw [perform, failed]
      exact ⟨.inr ⟨rfl, cause, rfl⟩, lasting'⟩
  | _ => exact welcome.elim

theorem Lasting.outcomes (word : dimension < wordSize) (lasting : Lasting p dimension s fs)
    {qs : List Request} (welcome : ∀ q ∈ qs, q.Welcome dimension) :
    ∀ x ∈ outcomes s fs qs, Served x := by
  induction qs generalizing s fs with
  | nil => nofun
  | cons q qs ih =>
    obtain ⟨first, rest⟩ := List.forall_mem_cons.mp welcome
    obtain ⟨done, lasting'⟩ := lasting.step word first
    exact List.forall_mem_cons.mpr ⟨done, ih lasting' rest⟩

/-! ## The first flush -/

/-- Batches that were taken one after the other are in the store. -/
theorem adds_cases (accepted : batches.foldlM Store.add s = .ok t) (held : s.holdings = some h) :
    t = { s with holdings := some (h.upserted (batches.flatMap Batch.entries)) } ∧
      ∀ b ∈ batches, ∀ v ∈ b.vectors, v.length = s.dimension := by
  induction batches generalizing s h with
  | nil =>
    obtain rfl : s = t := Except.ok.inj accepted
    refine ⟨?_, nofun⟩
    change s = { s with holdings := some h }
    rw [← held]
  | cons b batches ih =>
    rw [List.foldlM_cons] at accepted
    cases added : s.add b with
    | error e =>
      rw [added] at accepted
      cases accepted
    | ok mid =>
      rw [added] at accepted
      obtain ⟨-, lengths, h', held', rfl⟩ := add_cases added
      obtain rfl := Option.some.inj (held.symm.trans held')
      obtain ⟨rfl, others⟩ := ih accepted rfl
      refine ⟨?_, List.forall_mem_cons.mpr ⟨lengths, others⟩⟩
      rw [List.flatMap_cons, Holdings.upserted_append]

/-- The first flush over no records writes all records of the store, if there are any. -/
theorem flush_first (carries : Carries dimension p .empty fs) (path : s.path = some p)
    (fits : s.dimension = dimension) (held : s.holdings = some h)
    (tracked : Tracked dimension h.records h) (run : s.flush fs = (.ok t, fs')) :
    t = { s with holdings := some { h with dirty := .empty } } ∧
      ((h.records = .empty ∧ fs' = fs) ∨ Filled p (Snapshot.encode
        ⟨StoreError.schemaVersion, dimension, s.metric, h.records⟩) fs') := by
  obtain ⟨h', held', ⟨inMemory, -⟩ | ⟨q, own, ⟨clean, rfl, rfl⟩ | ⟨-, found, ready, after, prepared,
    loaded, written, rest⟩⟩⟩ := flush_cases run
  · exact absurd (path.symm.trans inMemory) nofun
  · obtain rfl := Option.some.inj (held.symm.trans held')
    refine ⟨?_, .inl ⟨tracked.pending_eq clean, rfl⟩⟩
    have same : { h with dirty := .empty } = h := by
      rw [← Table.isEmpty_iff.mp clean]
    rw [same, ← held]
  · obtain rfl := Option.some.inj (path.symm.trans own)
    obtain rfl := Option.some.inj (held.symm.trans held')
    obtain ⟨rfl, rfl⟩ := carries.of_load fits prepared loaded
    have merged : overlay .empty h.dirty.keys h.records = h.records := by
      rw [tracked.overlay_eq, Table.empty_covered]
    rw [merged] at written rest
    rw [writeSnapshot_eq, fits] at written
    rcases rest with ⟨-, rfl⟩ | ⟨other, -⟩
    · exact ⟨rfl, .inr (carries.filled prepared written)⟩
    · exact absurd rfl other

/-! ## Opening again -/

/-- New handles open the snapshot and find certain ids, and the handle that wrote it goes on as long
as the files do. -/
structure Reopens (p : Path) (dimension : Nat) (ids : List String) (s : Store) (fs : FileSystem) :
    Prop where
  opens : ∀ metric, ∃ t h, (closed (some p) dimension metric).init fs = (.ok t, fs) ∧
    t.holdings = some h ∧ h.records.keys = ids
  goesOn : ∀ qs, (∀ q ∈ qs, q.Welcome dimension) → ∀ x ∈ outcomes s fs qs, Served x

/-- No handle opens the snapshot, and none that has something pending gets it flushed. -/
structure Ruined (p : Path) (dimension : Nat) (fs : FileSystem) : Prop where
  refuses : ∀ metric, (closed (some p) dimension metric).init fs = (.error .document, fs)
  stuck : ∀ (s : Store) (h : Holdings), s.path = some p → s.dimension = dimension →
    s.holdings = some h → h.dirty.isEmpty = false → ∀ t fs', s.flush fs ≠ (.ok t, fs')

theorem Lasting.reopens (word : dimension < wordSize) (lasting : Lasting p dimension s fs)
    (carries : Carries dimension p D fs) (durable : Durable dimension D) :
    Reopens p dimension D.keys s fs := by
  constructor
  · intro metric
    obtain ⟨index, indexed⟩ := indexOf_of_lengths (s := closed (some p) dimension metric)
      fun id r there => (durable id r there).length
    exact ⟨_, _, init_of_load rfl carries.loads indexed, rfl, rfl⟩
  · intro qs welcome
    exact lasting.outcomes word welcome

theorem Filled.ruined {c : Bytes} (filled : Filled p c fs)
    (refused : Snapshot.recordsFor dimension c = .error .document) : Ruined p dimension fs := by
  constructor
  · intro metric
    have fails : (closed (some p) dimension metric).load p fs = (.error .document, fs) := by
      rw [load_eq, filled.found]
      exact congrArg (·, fs) refused
    rw [init_eq rfl]
    exact StoreAction.bind_of_error fails
  · intro s h path fits held waits t fs' run
    obtain ⟨h', held', ⟨inMemory, -⟩ | ⟨q, own, ⟨clean, -⟩ | ⟨-, found, ready, after, prepared,
      loaded, -⟩⟩⟩ := flush_cases run
    · exact absurd (path.symm.trans inMemory) nofun
    · obtain rfl := Option.some.inj (held.symm.trans held')
      exact absurd (clean.symm.trans waits) nofun
    · obtain rfl := Option.some.inj (path.symm.trans own)
      rw [load_eq, (filled.prepare prepared).found, fits] at loaded
      exact absurd (refused.symm.trans (Prod.mk.inj loaded).1) nofun

/-- The records of some batches. Of two under one id the later counts. -/
def gathered (batches : List Batch) : Table Record := .ofList (batches.flatMap Batch.entries)

theorem all_gathered {holds : String → Record → Prop}
    (each : ∀ b ∈ batches, ∀ e ∈ b.entries, holds e.1 e.2) : (gathered batches).All holds := by
  refine Table.all_empty.insertAll fun e listed => ?_
  obtain ⟨b, inside, among⟩ := List.mem_flatMap.mp listed
  exact each b inside e among

/-- A handle that opened over no records and took some batches holds and has pending what they
bring. -/
theorem tracked_gathered {s₀ : Store} {fs₀ : FileSystem} (carries : Carries dimension p .empty fs)
    (opened : (closed (some p) dimension metric).init fs = (.ok s₀, fs₀))
    (accepted : batches.foldlM Store.add s₀ = .ok s) : fs₀ = fs ∧ s.path = some p ∧
      s.dimension = dimension ∧ ∃ h, s.holdings = some h ∧ h.records = gathered batches ∧
        Tracked dimension h.records h ∧ ∀ b ∈ batches, ∀ v ∈ b.vectors, v.length = dimension := by
  obtain ⟨index, indexed⟩ :
      ∃ index, (closed (some p) dimension metric).indexOf .empty = .ok index :=
    indexOf_of_lengths nofun
  have own := dimension_of_indexOf indexed
  obtain ⟨same, rfl⟩ := Prod.mk.inj ((init_of_load rfl carries.loads indexed).symm.trans opened)
  obtain rfl := Except.ok.inj same
  obtain ⟨rfl, lengths⟩ := adds_cases accepted rfl
  have tracked : Tracked dimension .empty ⟨.empty, index, .empty⟩ := ⟨own, fun _ => Iff.rfl, nofun⟩
  exact ⟨rfl, rfl, rfl, _, rfl, rfl, tracked.upserted _, lengths⟩

theorem durable_gathered (lengths : ∀ b ∈ batches, ∀ v ∈ b.vectors, v.length = dimension)
    (lines : ∀ b ∈ batches, ∀ m ∈ b.metadatas, m.startLine < wordSize ∧ m.endLine < wordSize)
    (finite : ∀ id r, (gathered batches).get? id = some r → r.IsFinite) :
    Durable dimension (gathered batches) := by
  have shapes : ∀ id r, (gathered batches).get? id = some r → r.vector.length = dimension ∧
      r.metadata.startLine < wordSize ∧ r.metadata.endLine < wordSize := by
    apply all_gathered
    intro b inside e among
    exact ⟨lengths b inside _ (Batch.mem_entries_vector among),
      lines b inside _ (Batch.mem_entries_metadata among)⟩
  intro id r there
  obtain ⟨length, first, last⟩ := shapes id r there
  exact ⟨length, finite id r there, first, last⟩

/-- What is on disk after a first flush of records that can be read again. -/
theorem carries_of_first (word : dimension < wordSize) (carries : Carries dimension p .empty fs)
    (durable : Durable dimension records)
    (written : (records = .empty ∧ fs' = fs) ∨ Filled p (Snapshot.encode
      ⟨StoreError.schemaVersion, dimension, metric, records⟩) fs') :
    ∃ D, Carries dimension p D fs' ∧ D.keys = records.keys ∧ Durable dimension D := by
  rcases written with ⟨rfl, rfl⟩ | filled
  · exact ⟨.empty, carries, rfl, nofun⟩
  · obtain ⟨again, reads, ids, durable'⟩ : ∃ again, Snapshot.recordsFor dimension
        (Snapshot.encode ⟨StoreError.schemaVersion, dimension, metric, records⟩) = .ok again ∧
          again.keys = records.keys ∧ Durable dimension again := durable.recordsFor_encode word
    exact ⟨again, filled.carries reads, ids, durable'⟩

/-- After the first flush over no records that succeeds, new handles find all ids and the handle
goes on, if and only if all components of its records are finite. Otherwise the snapshot is ruined
for every handle. -/
theorem reopens_iff_finite {s₀ : Store} {fs₀ : FileSystem} (word : dimension < wordSize)
    (carries : Carries dimension p .empty fs)
    (lines : ∀ b ∈ batches, ∀ m ∈ b.metadatas, m.startLine < wordSize ∧ m.endLine < wordSize)
    (opened : (closed (some p) dimension metric).init fs = (.ok s₀, fs₀))
    (accepted : batches.foldlM Store.add s₀ = .ok s) (flushed : s.flush fs₀ = (.ok t, fs')) :
    (∃ h, t.holdings = some h ∧ h.records = gathered batches) ∧
      ((∀ id r, (gathered batches).get? id = some r → r.IsFinite) ↔
        Reopens p dimension (gathered batches).keys t fs') ∧
          ((∃ id r, (gathered batches).get? id = some r ∧ ¬r.IsFinite) →
            Ruined p dimension fs') := by
  obtain ⟨rfl, path, fits, h, held, own, tracked, lengths⟩ :=
    tracked_gathered carries opened accepted
  obtain ⟨rfl, written⟩ := flush_first carries path fits held tracked flushed
  rw [own] at written
  have ruined : (∃ id r, (gathered batches).get? id = some r ∧ ¬r.IsFinite) →
      Ruined p dimension fs' := by
    rintro ⟨id, r, there, infinite⟩
    rcases written with ⟨none_, -⟩ | filled
    · rw [none_] at there
      cases there
    · have lines' : ∀ id r, (gathered batches).get? id = some r →
          r.metadata.startLine < wordSize ∧ r.metadata.endLine < wordSize :=
        all_gathered fun b inside e among =>
          lines b inside _ (Batch.mem_entries_metadata among)
      exact filled.ruined (Snapshot.recordsFor_encode_of_infinite word lines' there infinite)
  refine ⟨⟨_, rfl, own⟩, ?_, ruined⟩
  constructor
  · intro finite
    have durable := durable_gathered lengths lines finite
    obtain ⟨D, carries', ids, durable'⟩ := carries_of_first word carries durable written
    have serves : Store.Serves { s with holdings := some { h with dirty := .empty } }
        { h with dirty := .empty } := ⟨rfl, tracked.fits.trans fits.symm⟩
    have lasting : Lasting p dimension { s with holdings := some { h with dirty := .empty } } fs' :=
      ⟨path, fits, ⟨_, serves, own ▸ durable⟩, D, carries', durable'⟩
    rw [← ids]
    exact lasting.reopens word carries' durable'
  · intro reopens id r there
    by_contra infinite
    obtain ⟨t, h, opens, -⟩ := reopens.opens metric
    exact absurd (((ruined ⟨id, r, there, infinite⟩).refuses metric).symm.trans opens) nofun

/-- A record with an infinite component. -/
def infinite : Record := { Writers.blank 1 with vector := [Binary.infinity false] }

/-- The snapshot of that record is ruined, though it was added and flushed. -/
theorem ruined_infinite : ∃ s t fs', [Batch.ofEntries [("a", infinite)]].foldlM Store.add
      (Writers.handle (some Writers.bare)) = .ok s ∧ s.flush ⟨[], []⟩ = (.ok t, fs') ∧
        ¬Reopens (Path.ofText "s.json") 1 ["a"] t fs' ∧ Ruined (Path.ofText "s.json") 1 fs' := by
  have opened : (closed (some (Path.ofText "s.json")) 1 .l2).init ⟨[], []⟩ =
      (.ok (Writers.handle (some Writers.bare)), ⟨[], []⟩) := attempt_ok Writers.handle_init
  have accepted : [Batch.ofEntries [("a", infinite)]].foldlM Store.add
      (Writers.handle (some Writers.bare)) =
        .ok (Writers.handle (some (Writers.bare.upserted [("a", infinite)]))) := rfl
  have prepared : prepare (Path.ofText "s.json") ⟨[], []⟩ =
      (.ok (), ⟨[(["s.lock"], .file [])], []⟩) := rfl
  have flushed := attempt_ok (Writers.handle_flush (h := Writers.bare.upserted [("a", infinite)])
    rfl prepared rfl (fun _ => rfl) (by decide +kernel))
  have there : (gathered [Batch.ofEntries [("a", infinite)]]).get? "a" = some infinite := rfl
  have other : ¬infinite.IsFinite := fun finite =>
    absurd (finite (Binary.infinity false) List.mem_cons_self) (by decide)
  obtain ⟨-, finite, ruined⟩ := reopens_iff_finite (by decide) Writers.vacant_bare.carries
    (by decide +kernel) opened accepted flushed
  exact ⟨_, _, _, accepted, flushed, fun reopens => other (finite.mpr reopens "a" _ there),
    ruined ⟨"a", _, there, other⟩⟩

end Store

end CodeSearch
