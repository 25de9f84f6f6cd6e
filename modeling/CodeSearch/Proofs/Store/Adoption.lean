import CodeSearch.Proofs.Store.Agreement

/-! # What a store takes over when it flushes

A flush reads the snapshot again and writes it back with the pending records. The store takes
over what it wrote if the ids differ from its own. If not, it goes on with its own records, and
misses what other handles have put under ids that it has.
-/

namespace CodeSearch

namespace Store

variable {s t : Store} {fs fs' : FileSystem} {p : Path} {h : Holdings}

/-- After a flush that wrote, a store has nothing pending, and its records are those it wrote if
and only if these have other ids than its own had, or differ from its own in pending ids only. -/
theorem adopts_of_flush (coherent : s.Coherent) (path : s.path = some p)
    (held : s.holdings = some h) (waits : h.dirty.isEmpty = false)
    (run : s.flush fs = (.ok t, fs')) : ∃ h' found ready after, t.holdings = some h' ∧
      prepare p fs = (.ok (), ready) ∧ s.load p ready = (.ok found, after) ∧ h'.dirty = .empty ∧
        (h'.records = overlay found h.dirty.keys h.records ↔
          ((overlay found h.dirty.keys h.records).keys = h.records.keys →
            ∀ id, id ∉ h.dirty.keys →
              (overlay found h.dirty.keys h.records).get? id = h.records.get? id)) := by
  obtain ⟨h', held', ⟨inMemory, -⟩ | ⟨q, own, ⟨clean, -⟩ | ⟨-, found, ready, after, prepared,
    loaded, -, rest⟩⟩⟩ := flush_cases run
  · exact absurd (path.symm.trans inMemory) nofun
  · obtain rfl := Option.some.inj (held.symm.trans held')
    exact absurd (clean.symm.trans waits) nofun
  · obtain rfl := Option.some.inj (held.symm.trans held')
    obtain rfl := Option.some.inj (path.symm.trans own)
    have pending : ∀ id, id ∈ h.dirty.keys →
        (overlay found h.dirty.keys h.records).get? id = h.records.get? id := by
      intro id dirty
      have there := Table.mem_keys_iff.mp ((coherent h held).dirty id dirty)
      rw [get?_overlay, if_pos dirty, Option.or_of_isSome there]
    rcases rest with ⟨same, rfl⟩ | ⟨other, index, -, rfl⟩
    · refine ⟨_, found, ready, after, rfl, prepared, loaded, rfl, fun equal _ id _ => ?_,
        fun others => Table.ext_get? fun id => ?_⟩
      · rw [← equal]
      · by_cases dirty : id ∈ h.dirty.keys
        · exact (pending id dirty).symm
        · exact (others same id dirty).symm
    · exact ⟨_, found, ready, after, rfl, prepared, loaded, rfl,
        fun _ same => absurd same other, fun _ => rfl⟩

end Store

namespace Writers

open Store

variable {p : Path} {dimension n : Nat} {metric : Nat → Metric} {files : FileSystem}
variable {disk : Table Record} {w w' : Writers} {l : Ledger} {h : Holdings}
variable {qs : List (Nat × Store.Request)}

theorem coherent_step (coherent : ∀ n, (w.stores n).Coherent) (n : Nat) (q : Store.Request) :
    ∀ m, ((w.step n q).2.stores m).Coherent := by
  intro m
  change (Function.update w.stores n (Store.perform q (w.stores n) w.files).2.1 m).Coherent
  by_cases same : m = n
  · subst same
    rw [Function.update_self]
    exact ((coherent m).answer (.request q) w.files).1
  · rw [Function.update_of_ne same]
    exact coherent m

theorem coherent_run (coherent : ∀ n, (w.stores n).Coherent) (qs : List (Nat × Store.Request)) :
    ∀ n, ((w.run l qs).1.stores n).Coherent := by
  induction qs generalizing w l with
  | nil => exact coherent
  | cons x qs ih =>
    obtain ⟨n, q⟩ := x
    exact ih (coherent_step coherent n q)

/-! ## Two handles -/

/-- A handle on a snapshot of vectors of length one. -/
def handle (held : Option Holdings) : Store := ⟨some (Path.ofText "s.json"), 1, .l2, held⟩

def pair (first second : Option Holdings) (files : FileSystem) : Writers where
  stores
    | 0 => handle first
    | 1 => handle second
    | _ => handle none
  files := files

/-- A directory with a snapshot and its lock. -/
def shelf (content : Bytes) : FileSystem :=
  ⟨[(["s.json"], .file content), (["s.lock"], .file [])], []⟩

theorem prepare_shelf (content : Bytes) :
    prepare (Path.ofText "s.json") (shelf content) = (.ok (), shelf content) := rfl

theorem put_shelf (content fresh : Bytes) :
    put (Path.ofText "s.json") fresh (shelf content) = (.ok (), shelf fresh) := rfl

/-- What a handle holds that found no snapshot. -/
def bare : Holdings := ⟨.empty, .empty 1 .l2, .empty⟩

def noted (text : String) : Record := { blank 1 with document := text }

theorem storable_noted (text : String) : (noted text).Storable 1 :=
  have storable := storable_blank 1
  ⟨storable.length, storable.reads, storable.first, storable.last⟩

section Pair

variable {q : Store.Request} {first second : Option Holdings} {h : Holdings}
variable {files files' : FileSystem} {id text : String} {found : Table Record}

theorem step_first (done : perform q (handle first) files = (.ok (), handle (some h), files')) :
    (pair first second files).step 0 q = (.ok (), pair (some h) second files') := by
  rw [step_eq (w := pair first second files) done]
  refine congrArg (fun stores => (_, Writers.mk stores _)) (funext fun n => ?_)
  rcases n with _ | _ | n <;> rfl

theorem step_second (done : perform q (handle second) files = (.ok (), handle (some h), files')) :
    (pair first second files).step 1 q = (.ok (), pair first (some h) files') := by
  rw [step_eq (w := pair first second files) done]
  refine congrArg (fun stores => (_, Writers.mk stores _)) (funext fun n => ?_)
  rcases n with _ | _ | n <;> rfl

theorem handle_init :
    perform .init (handle none) ⟨[], []⟩ = (.ok (), handle (some bare), ⟨[], []⟩) :=
  rfl

theorem handle_add (fits : h.index.dimension = 1) :
    perform (.add (.ofEntries [(id, noted text)])) (handle (some h)) files =
      (.ok (), handle (some (h.upserted [(id, noted text)])), files) := by
  have lengths : ∀ v ∈ (Batch.ofEntries [(id, noted text)]).vectors, v.length = 1 := by
    intro v listed
    obtain rfl : v = (noted text).vector := List.mem_singleton.mp listed
    rfl
  have added := add_eq_ok (s := handle (some h)) ⟨rfl, fits⟩ (Batch.isEven_ofEntries _) lengths
  rw [Batch.entries_ofEntries] at added
  exact perform_add added

/-- The files after a handle has written some records. -/
def written (records : Table Record) : FileSystem :=
  shelf (Snapshot.encode ⟨StoreError.schemaVersion, 1, .l2, records⟩)

theorem recordsOf_written (storable : Store.Storable 1 found) :
    recordsOf 1 (FileSystem.entry? (written found) (Path.ofText "s.json")) = .ok found :=
  Snapshot.recordsFor_encode (by decide) storable

theorem handle_flush (waits : h.dirty.isEmpty = false)
    (prepared : prepare (Path.ofText "s.json") files = (.ok (), files'))
    (loads : recordsOf 1 (files'.entry? (Path.ofText "s.json")) = .ok found)
    (puts : ∀ c, put (Path.ofText "s.json") c files' = (.ok (), shelf c))
    (same : (overlay found h.dirty.keys h.records).keys = h.records.keys) :
    perform .flush (handle (some h)) files =
      (.ok (), handle (some { h with dirty := .empty }),
        written (overlay found h.dirty.keys h.records)) := by
  have loaded : (handle (some h)).load (Path.ofText "s.json") files' = (.ok found, files') := by
    rw [load_eq]
    exact congrArg (·, files') loads
  rw [perform, attempt, flush_of_write rfl rfl waits prepared loaded (puts _) same]
  rfl

/-- A later flush, over what was written before. -/
theorem handle_flush_written (storable : Store.Storable 1 found) (waits : h.dirty.isEmpty = false)
    (same : (overlay found h.dirty.keys h.records).keys = h.records.keys) :
    perform .flush (handle (some h)) (written found) =
      (.ok (), handle (some { h with dirty := .empty }),
        written (overlay found h.dirty.keys h.records)) :=
  handle_flush waits (prepare_shelf _) (recordsOf_written storable) (put_shelf _) same

end Pair

theorem vacant_bare : Store.Vacant (Path.ofText "s.json") ⟨[], []⟩ where
  sound := by
    refine ⟨rfl, fun q e there => ?_⟩
    cases q with
    | nil => rfl
    | cons n q => cases there
  parents := by
    intro up above
    left
    obtain rfl := Option.some.inj (above.symm.trans rfl)
    rfl
  absent := ⟨["s.json"], rfl, rfl⟩
  other := by decide
  lock := by
    intro q t _ link
    cases q <;> cases link
  unlinked := by
    intro q t _ link
    cases q <;> cases link

namespace Replaced

/-! What two handles hold that put different records under `x`, one after the other, and what
they leave on disk. The first then adds another record. -/

def firstHeld : Holdings := bare.upserted [("x", noted "old")]

def firstKept : Holdings := { firstHeld with dirty := .empty }

def secondHeld : Holdings := bare.upserted [("x", noted "new")]

def secondKept : Holdings := { secondHeld with dirty := .empty }

def behind : Holdings := firstKept.upserted [("y", noted "more")]

def firstDisk : Table Record := overlay .empty firstHeld.dirty.keys firstHeld.records

def lastDisk : Table Record := overlay firstDisk secondHeld.dirty.keys secondHeld.records

/-- What the first handle leaves on disk then. -/
def merged : Table Record := overlay lastDisk behind.dirty.keys behind.records

theorem storable_upserted {h : Holdings} (id text : String)
    (storable : Store.Storable 1 h.records) :
    Store.Storable 1 (h.upserted [(id, noted text)]).records :=
  storable.insertAll (List.forall_mem_singleton.mpr (storable_noted text))

theorem storable_firstDisk : Store.Storable 1 firstDisk :=
  storable_empty.overlay (storable_upserted _ _ storable_empty) _

theorem storable_lastDisk : Store.Storable 1 lastDisk :=
  storable_firstDisk.overlay (storable_upserted _ _ storable_empty) _

theorem storable_behind : Store.Storable 1 behind.records :=
  storable_upserted _ _ (storable_upserted _ _ storable_empty)

theorem storable_merged : Store.Storable 1 merged :=
  storable_lastDisk.overlay storable_behind _

/-- The requests after which the first handle is behind. -/
def requests : List (Nat × Store.Request) :=
  [(0, .init), (1, .init), (0, .add (.ofEntries [("x", noted "old")])), (0, .flush),
    (1, .add (.ofEntries [("x", noted "new")])), (1, .flush),
    (0, .add (.ofEntries [("y", noted "more")]))]

theorem run_requests (l : Ledger) :
    ((start (Path.ofText "s.json") 1 (fun _ => .l2) ⟨[], []⟩).run l requests).1 =
      pair (some behind) (some secondKept) (written lastDisk) := by
  have opened : start (Path.ofText "s.json") 1 (fun _ => .l2) ⟨[], []⟩ = pair none none ⟨[], []⟩ :=
    congrArg (Writers.mk · _) (funext fun n => by rcases n with _ | _ | n <;> rfl)
  have added : (pair (some bare) (some bare) ⟨[], []⟩).step 0
      (.add (.ofEntries [("x", noted "old")])) =
        (.ok (), pair (some firstHeld) (some bare) ⟨[], []⟩) := step_first (handle_add rfl)
  have prepared : prepare (Path.ofText "s.json") ⟨[], []⟩ =
      (.ok (), ⟨[(["s.lock"], .file [])], []⟩) := rfl
  have flushed : (pair (some firstHeld) (some bare) ⟨[], []⟩).step 0 .flush =
      (.ok (), pair (some firstKept) (some bare) (written firstDisk)) :=
    step_first (handle_flush rfl prepared rfl (fun _ => rfl) (by decide +kernel))
  have added' : (pair (some firstKept) (some bare) (written firstDisk)).step 1
      (.add (.ofEntries [("x", noted "new")])) =
        (.ok (), pair (some firstKept) (some secondHeld) (written firstDisk)) :=
    step_second (handle_add rfl)
  have flushed' : (pair (some firstKept) (some secondHeld) (written firstDisk)).step 1 .flush =
      (.ok (), pair (some firstKept) (some secondKept) (written lastDisk)) :=
    step_second (handle_flush_written storable_firstDisk rfl (by decide +kernel))
  have added'' : (pair (some firstKept) (some secondKept) (written lastDisk)).step 0
      (.add (.ofEntries [("y", noted "more")])) =
        (.ok (), pair (some behind) (some secondKept) (written lastDisk)) :=
    step_first (handle_add rfl)
  rw [opened, requests]
  simp only [run, step_first handle_init, step_second handle_init, added, flushed, added',
    flushed', added'']

theorem flush_behind : (pair (some behind) (some secondKept)
    (written lastDisk)).step 0 .flush = (.ok (), pair (some { behind with dirty := .empty })
      (some secondKept)
      (written merged)) :=
  step_first (handle_flush_written storable_lastDisk rfl (by decide +kernel))

theorem fair_requests : ∀ x ∈ requests, x.2.Fair := by
  have fair : ∀ id text, (Store.Request.add (.ofEntries [(id, noted text)])).Fair := fun id text =>
    Store.fair_ofEntries (List.forall_mem_singleton.mpr (storable_noted text))
  intro x listed
  simp only [requests, List.mem_cons, List.not_mem_nil, or_false] at listed
  rcases listed with rfl | rfl | rfl | rfl | rfl | rfl | rfl <;> first | exact fair _ _ | trivial

end Replaced

/-! ## What is taken over -/

/-- After any run of any number of handles, a flush by one of them that has records pending leaves
the handle with the records that a fresh load finds, if and only if these have other ids than the
handle had, or no other handle has replaced one of its records that was not pending. -/
theorem adopts_iff (word : dimension < wordSize) (carries : Store.Carries dimension p disk files)
    (storable : Store.Storable dimension disk) (fair : ∀ x ∈ qs, x.2.Fair)
    (reached : ((start p dimension metric files).run (.start disk) qs).1 = w)
    (held : (w.stores n).holdings = some h) (waits : h.dirty.isEmpty = false)
    (done : w.step n .flush = (.ok (), w')) :
    ∃ h' records, (w'.stores n).holdings = some h' ∧
      Store.fresh p dimension w'.files = .ok records ∧ h'.Agrees dimension ∧ h'.dirty = .empty ∧
        (h'.records = records ↔ (records.keys = h.records.keys →
          ∀ id, id ∉ h.dirty.keys → records.get? id = h.records.get? id)) := by
  have kept : Kept p dimension ((start p dimension metric files).run (.start disk) qs).1
      ((start p dimension metric files).run (.start disk) qs).2 :=
    (kept_start carries storable).run word fair
  have coherent : ∀ n, (w.stores n).Coherent := by
    rw [← reached]
    exact coherent_run (fun _ => Store.coherent_closed _ _ _) qs
  rw [reached] at kept
  rcases run : Store.perform .flush (w.stores n) w.files with ⟨r, t, after⟩
  rw [step_eq run] at done
  obtain ⟨rfl, rfl⟩ := Prod.mk.inj done
  have tracks := kept.stores n
  have flushed := Store.attempt_ok run
  obtain ⟨h', found, ready, after', held', prepared, loaded, clean, adopts⟩ :=
    Store.adopts_of_flush (coherent n) tracks.path held waits flushed
  obtain ⟨-, merged⟩ := tracks.merged_eq kept.files held prepared loaded
  have carries' := (Store.flush_ok_carries word tracks kept.files kept.storable flushed).2
  have agrees := ((coherent n).flush flushed).1 h' held'
  rw [((coherent n).flush flushed).2.2.1, tracks.fits] at agrees
  rw [merged] at adopts
  refine ⟨h', _, ?_, ?_, agrees, clean, adopts⟩
  · simpa using held'
  · rw [Store.fresh_eq]
    exact carries'.now

/-- A handle goes on with its own record under an id that another handle has replaced. -/
theorem not_adopts_replaced : ∃ w w' h records,
    ((start (Path.ofText "s.json") 1 (fun _ => .l2) ⟨[], []⟩).run (.start .empty)
      Replaced.requests).1 = w ∧
      w.step 0 .flush = (.ok (), w') ∧ (w'.stores 0).holdings = some h ∧
        Store.fresh (Path.ofText "s.json") 1 w'.files = .ok records ∧ h.records ≠ records := by
  obtain ⟨h, records, held, fresh_, -, -, adopts⟩ := adopts_iff (by decide) vacant_bare.carries
    storable_empty Replaced.fair_requests (Replaced.run_requests _) rfl rfl Replaced.flush_behind
  refine ⟨_, _, h, records, Replaced.run_requests _, Replaced.flush_behind, held, fresh_,
    fun same => ?_⟩
  have wrote : records = Replaced.merged := by
    refine Except.ok.inj (fresh_.symm.trans ?_)
    rw [Store.fresh_eq]
    exact recordsOf_written Replaced.storable_merged
  have others := adopts.mp same
  rw [wrote] at others
  exact absurd (others (by decide +kernel) "x" (by decide +kernel)) (by decide +kernel)

end Writers

end CodeSearch
