import Mathlib.Data.Fintype.EquivFin
import CodeSearch.Proofs.Store.Requests

/-! # Writers of one snapshot

Any number of handles write one snapshot, one request at a time and in any order. A ledger says
what should be on disk. It is kept in every run if and only if opening the lock leaves what a
load finds: a snapshot must not be its own lock.
-/

namespace CodeSearch

/-- Handles with numbers for names, and the files that they share. -/
structure Writers where
  stores : Nat → Store
  files : FileSystem

/-- What should be on disk, and what each handle has pending. -/
structure Ledger where
  disk : Table Record
  pending : Nat → Table Record

namespace Ledger

/-- Nothing is pending. -/
def start (disk : Table Record) : Ledger := ⟨disk, fun _ => .empty⟩

/-- Note a request of a handle, with its result. -/
def note (l : Ledger) (n : Nat) (q : Store.Request) : Except StoreError Unit → Ledger
  | .ok _ =>
    let (disk, pending) := q.settle l.disk (l.pending n)
    ⟨disk, Function.update l.pending n pending⟩
  | .error _ => l

end Ledger

namespace Writers

/-- No handle is ready yet. -/
def start (p : Path) (dimension : Nat) (metric : Nat → Metric) (files : FileSystem) : Writers :=
  ⟨fun n => Store.closed (some p) dimension (metric n), files⟩

/-- A request to one of the handles. -/
def step (w : Writers) (n : Nat) (q : Store.Request) : Except StoreError Unit × Writers :=
  let (r, s, files) := Store.perform q (w.stores n) w.files
  (r, ⟨Function.update w.stores n s, files⟩)

/-- Requests one after the other, with the ledger that is kept of them. -/
def run (w : Writers) (l : Ledger) : List (Nat × Store.Request) → Writers × Ledger
  | [] => (w, l)
  | (n, q) :: qs => run (w.step n q).2 (l.note n q (w.step n q).1) qs

end Writers

namespace Store

/-- The records that a fresh load yields. -/
def fresh (p : Path) (dimension : Nat) (files : FileSystem) : Except StoreError (Table Record) :=
  ((closed (some p) dimension .l2).load p files).1

theorem fresh_eq (p : Path) (dimension : Nat) (files : FileSystem) :
    fresh p dimension files = recordsOf dimension (files.entry? p) := by
  rw [fresh, load_eq]
  rfl

end Store

namespace Writers

variable {p : Path} {dimension : Nat} {metric : Nat → Metric} {files : FileSystem}
variable {disk : Table Record} {w : Writers} {l : Ledger} {n : Nat} {q : Store.Request}
variable {qs : List (Nat × Store.Request)}

/-- Every handle has pending what the ledger says, and the files carry what it has on disk. -/
structure Kept (p : Path) (dimension : Nat) (w : Writers) (l : Ledger) : Prop where
  stores : ∀ n, Store.Tracks p dimension (l.pending n) (w.stores n)
  files : Store.Carries dimension p l.disk w.files
  storable : Store.Storable dimension l.disk

/-- A request to one handle keeps the ledger of all. -/
theorem Kept.step (word : dimension < wordSize) (fair : q.Fair) (kept : Kept p dimension w l) :
    Kept p dimension (w.step n q).2 (l.note n q (w.step n q).1) := by
  obtain ⟨stores, files, storable⟩ := kept
  unfold Writers.step
  rcases done : Store.perform q (w.stores n) w.files with ⟨e | _, s, fs⟩
  · obtain ⟨rfl, files'⟩ := Store.perform_error word (stores n) files storable done
    refine ⟨fun m => ?_, files', storable⟩
    simpa [Ledger.note] using stores m
  · obtain ⟨tracks, files', storable'⟩ :=
      Store.perform_ok word fair (stores n) files storable done
    refine ⟨fun m => ?_, files', storable'⟩
    by_cases same : m = n
    · subst same
      simpa [Ledger.note] using tracks
    · simpa [Ledger.note, same] using stores m

theorem Kept.run (word : dimension < wordSize) (fair : ∀ x ∈ qs, x.2.Fair)
    (kept : Kept p dimension w l) : Kept p dimension (w.run l qs).1 (w.run l qs).2 := by
  induction qs generalizing w l with
  | nil => exact kept
  | cons x qs ih =>
    obtain ⟨n, q⟩ := x
    exact ih (fun x hx => fair x (List.mem_cons_of_mem _ hx))
      (kept.step word (fair (n, q) List.mem_cons_self))

theorem kept_start (files_ : Store.Carries dimension p disk files)
    (storable : Store.Storable dimension disk) :
    Kept p dimension (start p dimension metric files) (.start disk) :=
  ⟨fun _ => ⟨rfl, rfl, fun _ => rfl, nofun, Store.storable_empty⟩, files_, storable⟩

/-- In every run, whatever the order of requests, a fresh load yields what the ledger has. -/
def Lossless (p : Path) (dimension : Nat) (metric : Nat → Metric) (files : FileSystem)
    (disk : Table Record) : Prop :=
  ∀ qs : List (Nat × Store.Request), (∀ x ∈ qs, x.2.Fair) →
    Store.fresh p dimension ((start p dimension metric files).run (.start disk) qs).1.files =
      .ok ((start p dimension metric files).run (.start disk) qs).2.disk

/-! ## One record more -/

/-- A record that any store takes. -/
def blank (dimension : Nat) : Record where
  vector := List.replicate dimension (Binary.zero false)
  document := ""
  metadata := ⟨"", 1, 1, .comment, .empty⟩

theorem readsBack_zero : Json.ReadsBack (Binary.zero false) :=
  ⟨⟨false, ['0'], ['0'], none⟩, rfl, by decide +kernel⟩

theorem storable_blank (dimension : Nat) : (blank dimension).Storable dimension := by
  have line : 1 < wordSize := by decide
  refine ⟨List.length_replicate, fun x hx => ?_, line, line⟩
  rw [List.eq_of_mem_replicate hx]
  exact readsBack_zero

theorem exists_new (tables : List (Table Record)) : ∃ id, ∀ t ∈ tables, t.get? id = none := by
  obtain ⟨id, new⟩ := Infinite.exists_notMem_finset (tables.flatMap Table.keys).toFinset
  refine ⟨id, fun t ht => ?_⟩
  rw [List.mem_toFinset, List.mem_flatMap] at new
  cases there : t.get? id with
  | none => rfl
  | some r => exact absurd ⟨t, ht, Table.mem_keys_iff.mpr (by simp [there])⟩ new

theorem exists_new_of (t : Table Record) (found : Except StoreError (Table Record)) :
    ∃ id, t.get? id = none ∧ ∀ u, found = .ok u → u.get? id = none := by
  cases found with
  | error e =>
    obtain ⟨id, new⟩ := exists_new [t]
    exact ⟨id, new t List.mem_cons_self, nofun⟩
  | ok u =>
    obtain ⟨id, new⟩ := exists_new [t, u]
    refine ⟨id, new t List.mem_cons_self, fun u' same => ?_⟩
    rw [← Except.ok.inj same]
    exact new u (List.mem_cons_of_mem _ List.mem_cons_self)

/-- A first handle that gets ready, adds a new record and writes it. -/
def probe (dimension : Nat) (id : String) : List (Nat × Store.Request) :=
  [(0, .init), (0, .add (.ofEntries [(id, blank dimension)])), (0, .flush)]

/-- What the probe adds. -/
def probed (dimension : Nat) (id : String) : Table Record :=
  Table.empty.insertAll [(id, blank dimension)]

theorem get?_probed {id key : String} :
    (probed dimension id).get? key = if key = id then some (blank dimension) else none := by
  simp [probed, Table.insertAll]

theorem probed_ne_empty (id : String) : probed dimension id ≠ .empty := by
  intro none_
  have there : (probed dimension id).get? id = some (blank dimension) := by
    rw [get?_probed, if_pos rfl]
  rw [none_] at there
  cases there

theorem fair_add (id : String) :
    (Store.Request.add (.ofEntries [(id, blank dimension)])).Fair :=
  Store.fair_ofEntries (List.forall_mem_singleton.mpr (storable_blank dimension))

theorem fair_probe (id : String) : ∀ x ∈ probe dimension id, x.2.Fair := by
  intro x hx
  simp only [probe, List.mem_cons, List.not_mem_nil, or_false] at hx
  rcases hx with rfl | rfl | rfl
  · trivial
  · exact fair_add id
  · trivial

theorem step_eq {r : Except StoreError Unit} {s : Store} {g : FileSystem}
    (done : Store.perform q (w.stores n) w.files = (r, s, g)) :
    w.step n q = (r, ⟨Function.update w.stores n s, g⟩) := by
  simp [step, done]

/-- The probe, if its first two requests succeed. -/
theorem run_probe {id : String} {s t u : Store} {after : FileSystem} {r : Except StoreError Unit}
    (opens : Store.perform .init (w.stores 0) w.files = (.ok (), s, w.files))
    (adds : Store.perform (.add (.ofEntries [(id, blank dimension)])) s w.files =
      (.ok (), t, w.files))
    (flushes : Store.perform .flush t w.files = (r, u, after)) :
    w.run (.start disk) (probe dimension id) = (⟨Function.update w.stores 0 u, after⟩,
      (Ledger.mk disk (Function.update (fun _ => .empty) 0 (probed dimension id))).note 0 .flush
        r) := by
  have second : Writers.step ⟨Function.update w.stores 0 s, w.files⟩ 0
      (.add (.ofEntries [(id, blank dimension)])) =
        (.ok (), ⟨Function.update w.stores 0 t, w.files⟩) := by
    rw [step_eq (r := .ok ()) (s := t) (g := w.files), Function.update_idem]
    simpa using adds
  have third : Writers.step ⟨Function.update w.stores 0 t, w.files⟩ 0 .flush =
      (r, ⟨Function.update w.stores 0 u, after⟩) := by
    rw [step_eq (r := r) (s := u) (g := after), Function.update_idem]
    simpa using flushes
  simp only [probe, run, step_eq opens, second, third]
  simp [Ledger.note, Store.Request.settle, Ledger.start, Batch.entries_ofEntries, probed]

/-- The first two requests of the probe succeed, so its flush decides. -/
theorem exists_run_probe (metric : Nat → Metric) (loads : Store.fresh p dimension files = .ok disk)
    (storable : Store.Storable dimension disk) (id : String) :
    ∃ t : Store, Store.Tracks p dimension (probed dimension id) t ∧
      ∀ r u after, Store.attempt Store.flush t files = (r, u, after) →
        (start p dimension metric files).run (.start disk) (probe dimension id) =
          (⟨Function.update (start p dimension metric files).stores 0 u, after⟩,
            (Ledger.mk disk (Function.update (fun _ => .empty) 0 (probed dimension id))).note 0
              .flush r) := by
  generalize opened : Store.closed (some p) dimension (metric 0) = s
  have path : s.path = some p := by rw [← opened]; rfl
  have fits : s.dimension = dimension := by rw [← opened]; rfl
  obtain ⟨index, indexed⟩ := Store.indexOf_ok (s := s) (fits ▸ storable)
  have own := Store.dimension_of_indexOf indexed
  have loaded : s.load p files = (.ok disk, files) := by
    rw [Store.load_eq, fits, ← Store.fresh_eq, loads]
  have opens : Store.perform .init s files =
      (.ok (), { s with holdings := some ⟨disk, index, .empty⟩ }, files) := by
    rw [Store.perform, Store.attempt, Store.init_of_load path loaded indexed]
  have lengths : ∀ v ∈ (Batch.ofEntries [(id, blank dimension)]).vectors,
      v.length = s.dimension := by
    intro v hv
    obtain rfl : v = (blank dimension).vector := List.mem_singleton.mp hv
    rw [(storable_blank dimension).length, fits]
  have added := Store.add_eq_ok (s := { s with holdings := some ⟨disk, index, .empty⟩ })
    ⟨rfl, own⟩ (Batch.isEven_ofEntries _) lengths
  have settled := Store.tracks_settled path fits (own.trans fits) (h := ⟨disk, index, .empty⟩) rfl
  have tracks := Store.tracks_add settled (fair_add id) added
  rw [Batch.entries_ofEntries] at tracks added
  refine ⟨_, tracks, fun r u after flushed => ?_⟩
  refine run_probe (w := start p dimension metric files)
    (s := { s with holdings := some ⟨disk, index, .empty⟩ }) ?_ (Store.perform_add added) flushed
  change Store.perform .init (Store.closed (some p) dimension (metric 0)) files = _
  rw [opened, opens]
  rfl

section Probe

variable {s t : Store} {ready after : FileSystem} {found : Table Record} {id : String}
variable {e : StoreError}

/-- If the flush of the probe fails, it leaves what a load finds once the lock is open. -/
theorem fresh_of_flush_error (tracks : Store.Tracks p dimension (probed dimension id) s)
    (stored : ∀ records, Store.fresh p dimension (Store.prepare p files).2 = .ok records →
      Store.Storable dimension records)
    (replaces : ∀ ready, Store.prepare p files = (.ok (), ready) → Store.Replaces p ready)
    (failed : s.flush files = (.error e, after)) :
    Store.fresh p dimension (Store.prepare p files).2 = Store.fresh p dimension after := by
  rcases Store.flush_error tracks.path failed with ⟨none_, -⟩ | ⟨h, held, -, failed | ⟨ready,
    prepared, failed | ⟨disk', after', loaded, rest⟩⟩⟩
  · exact absurd (tracks.closed none_) (probed_ne_empty id)
  · rw [failed]
  · rw [Store.load_eq] at failed
    rw [prepared, (Prod.mk.inj failed).2]
  · rw [Store.load_eq, tracks.fits, ← Store.fresh_eq] at loaded
    obtain ⟨loads, rfl⟩ := Prod.mk.inj loaded
    rw [prepared] at stored ⊢
    rw [(tracks.ready h held).overlay_eq] at rest
    have merged := (stored disk' loads).covered tracks.storable
    rcases rest with failed | ⟨-, -, failed⟩
    · rw [Store.writeSnapshot_eq] at failed
      have same := (replaces ready prepared _ _ _ failed).2 nofun
      rw [Store.fresh_eq, Store.fresh_eq, same]
    · rw [← tracks.fits] at merged failed
      obtain ⟨index, indexed⟩ := Store.indexOf_ok merged
      exact absurd (indexed.symm.trans failed) nofun

/-- If the flush of the probe succeeds, it adds the record to what a load finds once the lock is
open. -/
theorem fresh_of_flush_ok (word : dimension < wordSize)
    (tracks : Store.Tracks p dimension (probed dimension id) s)
    (stored : ∀ records, Store.fresh p dimension (Store.prepare p files).2 = .ok records →
      Store.Storable dimension records)
    (replaces : ∀ ready, Store.prepare p files = (.ok (), ready) → Store.Replaces p ready)
    (done : s.flush files = (.ok t, after)) :
    ∃ found, Store.fresh p dimension (Store.prepare p files).2 = .ok found ∧
      Store.fresh p dimension after = .ok (found.covered (probed dimension id)) := by
  obtain ⟨h, held, ⟨path, -⟩ | ⟨q, path, ⟨clean, -⟩ | ⟨-, found, ready, after', prepared, loaded,
    written, -⟩⟩⟩ := Store.flush_cases done
  · exact absurd (path.symm.trans tracks.path) nofun
  · exact absurd ((tracks.ready h held).pending_eq clean) (probed_ne_empty id)
  · obtain rfl := Option.some.inj (path.symm.trans tracks.path)
    rw [Store.load_eq, tracks.fits, ← Store.fresh_eq] at loaded
    obtain ⟨loads, rfl⟩ := Prod.mk.inj loaded
    rw [prepared] at stored ⊢
    rw [(tracks.ready h held).overlay_eq, Store.writeSnapshot_eq, tracks.fits] at written
    have there := (replaces ready prepared _ _ _ written).1 rfl
    refine ⟨found, loads, ?_⟩
    rw [Store.fresh_eq, there]
    exact Snapshot.recordsFor_encode word ((stored found loads).covered tracks.storable)

end Probe

/-- What a load finds once the lock is open is found before, if nothing gets lost. -/
theorem locked_of_lossless (word : dimension < wordSize)
    (loads : Store.fresh p dimension files = .ok disk)
    (stored : ∀ fs ∈ [files, (Store.prepare p files).2], ∀ records,
      Store.fresh p dimension fs = .ok records → Store.Storable dimension records)
    (replaces : ∀ ready, Store.prepare p files = (.ok (), ready) → Store.Replaces p ready)
    (lossless : Lossless p dimension metric files disk) :
    Store.fresh p dimension (Store.prepare p files).2 = .ok disk := by
  have stored' := stored _ (List.mem_cons_of_mem _ List.mem_cons_self)
  -- The id is new to the records at the start and to those that the flush finds.
  obtain ⟨id, new⟩ := exists_new_of disk (Store.fresh p dimension (Store.prepare p files).2)
  obtain ⟨s, tracks, flushes⟩ := exists_run_probe metric loads
    (stored _ List.mem_cons_self _ loads) id
  have kept := lossless (probe dimension id) (fair_probe id)
  rcases flushed : Store.attempt Store.flush s files with ⟨_ | _, t, after⟩
  · obtain ⟨-, failed⟩ := Store.attempt_error flushed
    rw [flushes _ _ _ flushed] at kept
    rw [fresh_of_flush_error tracks stored' replaces failed]
    exact kept
  · obtain ⟨found, later, added⟩ :=
      fresh_of_flush_ok word tracks stored' replaces (Store.attempt_ok flushed)
    rw [flushes _ _ _ flushed] at kept
    change Store.fresh p dimension after =
      .ok (disk.covered (Function.update (fun _ => Table.empty) 0 _ 0)) at kept
    rw [Function.update_self] at kept
    have equal : found = disk := by
      refine Table.eq_of_covered (Except.ok.inj (added.symm.trans kept)) fun key there => ?_
      obtain rfl : key = id := by
        by_contra other
        exact there (by rw [get?_probed, if_neg other])
      exact ⟨new.2 found later, new.1⟩
    rw [later, equal]

/-- Nothing gets lost while the files carry what is on disk. -/
theorem lossless_of_carries (word : dimension < wordSize)
    (carries : Store.Carries dimension p disk files) (storable : Store.Storable dimension disk) :
    Lossless p dimension metric files disk := by
  intro qs fair
  rw [Store.fresh_eq]
  exact ((kept_start carries storable).run word fair).files.now

theorem lossless_of_filled {c : Bytes} (word : dimension < wordSize)
    (filled : Store.Filled p c files) (reads : Snapshot.recordsFor dimension c = .ok disk)
    (storable : Store.Storable dimension disk) : Lossless p dimension metric files disk :=
  lossless_of_carries word (filled.carries reads) storable

theorem lossless_of_vacant (word : dimension < wordSize) (vacant : Store.Vacant p files) :
    Lossless p dimension metric files .empty :=
  lossless_of_carries word vacant.carries Store.storable_empty

/-- Nothing gets lost if and only if opening the lock leaves what a load finds. -/
theorem lossless_iff (sound : files.Sound) (word : dimension < wordSize)
    (loads : Store.fresh p dimension files = .ok disk)
    (stored : ∀ fs ∈ [files, (Store.prepare p files).2], ∀ records,
      Store.fresh p dimension fs = .ok records → Store.Storable dimension records)
    (replaces : ∀ ready, Store.prepare p files = (.ok (), ready) → Store.Replaces p ready) :
    Lossless p dimension metric files disk ↔
      Store.fresh p dimension (Store.prepare p files).2 = .ok disk := by
  constructor
  · exact locked_of_lossless word loads stored replaces
  · intro locked
    have storable := stored _ List.mem_cons_self _ loads
    rw [Store.fresh_eq] at loads locked
    exact lossless_of_carries word ⟨sound, loads, locked, replaces⟩ storable

/-- A snapshot that is its own lock is lost. -/
theorem not_lossless_lock :
    ¬Lossless (Path.ofText "s.lock") 2 (fun _ => .l2) ⟨[], []⟩ .empty := by
  -- The first writer leaves an empty file, where a load finds no document.
  have opened : Store.prepare (Path.ofText "s.lock") ⟨[], []⟩ =
      (.ok (), ⟨[(["s.lock"], .file [])], []⟩) := rfl
  have empty_ : Store.fresh (Path.ofText "s.lock") 2 ⟨[(["s.lock"], .file [])], []⟩ =
      .error .document := rfl
  have sound : FileSystem.Sound ⟨[], []⟩ := by
    refine ⟨rfl, fun q e there => ?_⟩
    cases q with
    | nil => rfl
    | cons n q => cases there
  rw [lossless_iff sound (by decide) rfl]
  · rw [opened, empty_]
    exact nofun
  · intro fs either records found
    rw [opened] at either
    simp only [List.mem_cons, List.not_mem_nil, or_false] at either
    rcases either with rfl | rfl
    · obtain rfl : Table.empty = records := Except.ok.inj found
      exact Store.storable_empty
    · exact absurd (empty_.symm.trans found) nofun
  · intro ready prepared c r after written
    obtain rfl : _ = ready := (Prod.mk.inj (opened.symm.trans prepared)).2
    have put : Store.put (Path.ofText "s.lock") c ⟨[(["s.lock"], .file [])], []⟩ =
        (.ok (), ⟨[(["s.lock"], .file c)], []⟩) := rfl
    obtain ⟨rfl, rfl⟩ := Prod.mk.inj (put.symm.trans written)
    exact ⟨fun _ => rfl, fun failed => absurd rfl failed⟩

end Writers

end CodeSearch
