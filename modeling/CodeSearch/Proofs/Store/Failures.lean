import CodeSearch.Proofs.Store.Adoption

/-! # Failures of a store

A call that fails leaves the store as it was, and the snapshot too, with one exception. A flush
makes its index only after it has written: if the snapshot had a vector of another length, the
index refuses it, and the pending records are on disk though the flush fails.
-/

namespace CodeSearch

namespace Store

variable {s t : Store} {fs fs' : FileSystem} {p : Path} {h : Holdings} {c : Call} {q : Request}
variable {e : StoreError} {records found : Table Record}

/-! ## Causes -/

theorem cause_of_change {f : FileSystem → Except FileError FileSystem}
    (failed : StoreAction.change f fs = (.error e, fs')) : ∃ cause, e = .files cause := by
  rcases StoreAction.change_cases failed with ⟨ok, -⟩ | ⟨cause, same, -⟩
  · cases ok
  · exact ⟨_, Except.error.inj same⟩

theorem cause_of_prepare (failed : prepare p fs = (.error e, fs')) : ∃ cause, e = .files cause := by
  rcases StoreAction.bind_error.mp failed with made | ⟨_, mid, -, locked⟩
  · unfold makeParents at made
    cases above : p.parent? with
    | none =>
      simp only [above] at made
      cases (Prod.mk.inj made).1
    | some up =>
      simp only [above, StoreAction.changes] at made
      split at made
      · cases (Prod.mk.inj made).1
      · exact ⟨_, (Except.error.inj (Prod.mk.inj made).1).symm⟩
  · exact cause_of_change locked

theorem cause_of_writeSnapshot (failed : s.writeSnapshot p records fs = (.error e, fs')) :
    ∃ cause, e = .files cause := by
  rcases StoreAction.bind_error.mp failed with wrote | ⟨_, mid, -, moved⟩
  · exact cause_of_change wrote
  · exact cause_of_change moved

/-- An index is refused for a vector of another length. -/
theorem upsertAll_error {x : Index} {es : List (String × Embedding)}
    (failed : x.upsertAll es = .error e) :
    ∃ entry ∈ es, entry.2.length ≠ x.dimension ∧ e = .dimension x.dimension entry.2.length := by
  induction es generalizing x with
  | nil => cases failed
  | cons entry es ih =>
    change (x.upsert entry.1 entry.2 >>= fun x => x.upsertAll es) = .error e at failed
    by_cases fits : entry.2.length = x.dimension
    · have first : x.upsert entry.1 entry.2 =
          .ok { x with vectors := x.vectors.insert entry.1 entry.2 } := by
        simp [Index.upsert, Index.check, fits, Except.map]
      rw [first] at failed
      obtain ⟨other, listed, refused⟩ := ih failed
      exact ⟨other, List.mem_cons_of_mem _ listed, refused⟩
    · have first : x.upsert entry.1 entry.2 = .error (.dimension x.dimension entry.2.length) := by
        simp [Index.upsert, Index.check, fits, Except.map]
      rw [first] at failed
      exact ⟨entry, List.mem_cons_self, fits, (Except.error.inj failed).symm⟩

theorem indexOf_error (failed : s.indexOf records = .error e) : ∃ id r,
    records.get? id = some r ∧ r.vector.length ≠ s.dimension ∧
      e = .dimension s.dimension r.vector.length := by
  obtain ⟨entry, listed, refused⟩ := upsertAll_error failed
  obtain ⟨⟨id, r⟩, there, rfl⟩ := List.mem_map.mp listed
  exact ⟨id, r, Table.mem_entries_iff.mp there, refused⟩

/-! ## Opening the lock -/

/-- Opening the lock leaves a snapshot, whatever its text is. -/
theorem Filled.settles {content : Bytes} (filled : Filled p content fs) :
    FileSystem.entry? (Store.prepare p fs).2 p = fs.entry? p := by
  rcases run : Store.prepare p fs with ⟨r, ready⟩
  exact (filled.prepare run).found.trans filled.found.symm

/-- Opening the lock makes no snapshot under another name. -/
theorem Vacant.settles (vacant : Vacant p fs) :
    FileSystem.entry? (Store.prepare p fs).2 p = fs.entry? p := by
  rcases run : Store.prepare p fs with ⟨r, ready⟩
  exact (vacant.prepare run).missing.trans vacant.missing.symm

/-! ## A flush that fails late -/

/-- A flush that fails after it has put its pending records over those that it found on disk: it
takes over other ids, and a vector among those that it found has another length. -/
structure Late (s : Store) (p : Path) (fs : FileSystem) (c : Call) (e : StoreError) (h : Holdings)
    (found : Table Record) : Prop where
  call : c = .request .flush
  held : s.holdings = some h
  waits : h.dirty.isEmpty = false
  loads : recordsOf s.dimension (fs.entry? p) = .ok found
  other : (overlay found h.dirty.keys h.records).keys ≠ h.records.keys
  refused : ∃ id r, found.get? id = some r ∧ id ∉ h.dirty.keys ∧ r.vector.length ≠ s.dimension
  cause : ∃ length, e = .dimension s.dimension length

/-- The store's own records are never refused. -/
theorem Coherent.refused (coherent : s.Coherent) (held : s.holdings = some h)
    (failed : s.indexOf (overlay found h.dirty.keys h.records) = .error e) :
    (∃ id r, found.get? id = some r ∧ id ∉ h.dirty.keys ∧ r.vector.length ≠ s.dimension) ∧
      ∃ length, e = .dimension s.dimension length := by
  obtain ⟨id, r, there, long, rfl⟩ := indexOf_error failed
  refine ⟨⟨id, r, ?_, ?_, long⟩, _, rfl⟩
  all_goals
    rw [get?_overlay] at there
    split at there
    · rename_i dirty
      obtain ⟨own, mine⟩ := Option.isSome_iff_exists.mp
        (Table.mem_keys_iff.mp ((coherent h held).dirty id dirty))
      rw [mine] at there
      obtain rfl : own = r := Option.some.inj there
      exact absurd ((coherent h held).lengths id own mine) long
    · assumption

/-- What a flush that fails leaves of the snapshot. -/
theorem Coherent.flush_error (coherent : s.Coherent) (path : s.path = some p)
    (settles : FileSystem.entry? (prepare p fs).2 p = fs.entry? p)
    (replaces : ∀ ready, prepare p fs = (.ok (), ready) → Replaces p ready)
    (run : s.flush fs = (.error e, fs')) :
    (∃ h found, Late s p fs (.request .flush) e h found ∧
      fs'.entry? p = .ok (.file (Snapshot.encode ⟨StoreError.schemaVersion, s.dimension, s.metric,
        overlay found h.dirty.keys h.records⟩))) ∨
      (∀ h found, ¬Late s p fs (.request .flush) e h found) ∧ fs'.entry? p = fs.entry? p := by
  -- An error of the files is not that of an index.
  have early : (∃ cause, e = .files cause) → ∀ h found,
      ¬Late s p fs (.request .flush) e h found := by
    rintro ⟨cause, rfl⟩ h found late
    obtain ⟨length, other⟩ := late.cause
    cases other
  rcases Store.flush_error path run with ⟨closed, rfl⟩ | ⟨h, held, waits, failed | ⟨ready, prepared,
    failed | ⟨found, after, loaded, failed | ⟨written, other, failed⟩⟩⟩⟩
  · exact .inr ⟨fun h found late => absurd (closed.symm.trans late.held) nofun, rfl⟩
  · rw [failed] at settles
    exact .inr ⟨early (cause_of_prepare failed), settles⟩
  · rw [prepared] at settles
    rw [load_eq, settles] at failed
    obtain ⟨refuses, rfl⟩ := Prod.mk.inj failed
    exact .inr ⟨fun h found late => absurd (late.loads.symm.trans refuses) nofun, settles⟩
  · rw [prepared] at settles
    rw [load_eq] at loaded
    obtain ⟨-, rfl⟩ := Prod.mk.inj loaded
    have kept := (replaces _ prepared _ _ _ failed).2 nofun
    exact .inr ⟨early (cause_of_writeSnapshot failed), kept.trans settles⟩
  · rw [prepared] at settles
    rw [load_eq, settles] at loaded
    obtain ⟨loads, rfl⟩ := Prod.mk.inj loaded
    obtain ⟨refused, cause⟩ := coherent.refused held failed
    exact .inl ⟨h, found, ⟨rfl, held, waits, loads, other, refused, cause⟩,
      (replaces _ prepared _ _ _ written).1 rfl⟩

/-! ## Any call -/

/-- A store in memory leaves the files alone. -/
theorem files_inMemory (path : s.path = none) (q : Request) (fs : FileSystem) :
    (perform q s fs).2.2 = fs := by
  have idle : ∀ (f : Store → StoreAction Store) x, f s fs = (x, fs) →
      (attempt f s fs).2.2 = fs := by
    intro f x run
    cases x <;> simp [attempt, run]
  cases q with
  | init =>
    have held : s.init fs =
        (.ok { s with holdings := some ⟨.empty, .empty s.dimension s.metric, .empty⟩ }, fs) := by
      simp only [init, path]
      rfl
    exact idle init _ held
  | flush =>
    refine idle flush (s.ready.map fun h =>
      { s with holdings := some { h with dirty := .empty } }) ?_
    simp only [flush, path]
    cases s.ready <;> rfl
  | clear =>
    refine idle clear (s.ready.map fun h =>
      { s with holdings := some ⟨.empty, h.index.clear, .empty⟩ }) ?_
    simp only [clear, path]
    cases s.ready <;> rfl
  | _ => rfl

/-- What a request that fails leaves of the snapshot. -/
theorem Coherent.perform_error (coherent : s.Coherent) (path : s.path = some p)
    (settles : FileSystem.entry? (prepare p fs).2 p = fs.entry? p)
    (replaces : ∀ ready, prepare p fs = (.ok (), ready) → Replaces p ready)
    (run : perform q s fs = (.error e, t, fs')) :
    (∃ h found, Late s p fs (.request q) e h found ∧
      fs'.entry? p = .ok (.file (Snapshot.encode ⟨StoreError.schemaVersion, s.dimension, s.metric,
        overlay found h.dirty.keys h.records⟩))) ∨
      (∀ h found, ¬Late s p fs (.request q) e h found) ∧ fs'.entry? p = fs.entry? p := by
  have other : q ≠ .flush → ∀ h found, ¬Late s p fs (.request q) e h found := by
    intro other h found late
    exact other (Call.request.inj late.call)
  cases q with
  | init =>
    obtain ⟨-, failed⟩ := attempt_error run
    obtain rfl := init_error path failed
    exact .inr ⟨other nofun, rfl⟩
  | add b =>
    obtain rfl : fs = fs' := (Prod.mk.inj (Prod.mk.inj run).2).2
    exact .inr ⟨other nofun, rfl⟩
  | flush => exact coherent.flush_error path settles replaces (attempt_error run).2
  | clear =>
    refine .inr ⟨other nofun, ?_⟩
    rcases clear_error path (attempt_error run).2 with rfl | failed | ⟨ready, prepared, failed⟩
    · rfl
    · rwa [failed] at settles
    · rw [prepared] at settles
      exact ((replaces _ prepared _ _ _ failed).2 nofun).trans settles
  | drop => cases (Prod.mk.inj run).1

/-! ## A snapshot with a vector that is too short -/

def shortSnapshot : Table Record := Table.empty.insertAll [("z", Writers.blank 0)]

/-- What a handle holds that has another record pending. -/
def pendingOnly : Holdings := Writers.bare.upserted [("a", Writers.noted "new")]

/-- What it puts on disk. -/
def mixedSnapshot : Table Record :=
  overlay shortSnapshot pendingOnly.dirty.keys pendingOnly.records

theorem loads_shortSnapshot : recordsOf 1 (FileSystem.entry? (Writers.written shortSnapshot)
    (Path.ofText "s.json")) = .ok shortSnapshot := by
  have legible : ∀ id r, shortSnapshot.get? id = some r → r.Legible := by
    intro id r there
    rcases Table.mem_of_get?_insertAll there with listed | absent
    · obtain ⟨-, rfl⟩ := Prod.mk.inj (List.mem_singleton.mp listed)
      exact (Writers.storable_blank 0).legible
    · cases absent
  have again : Snapshot.reread? shortSnapshot = some shortSnapshot := rfl
  have loads : Snapshot.recordsFor 1
      (Snapshot.encode ⟨StoreError.schemaVersion, 1, .l2, shortSnapshot⟩) = .ok shortSnapshot := by
    rw [Snapshot.recordsFor_encode_of_legible (by decide) legible, again]
  exact loads

theorem serve_pendingOnly :
    (closed (some (Path.ofText "s.json")) 1 .l2).serve [(.request .init, ⟨[], []⟩),
      (.request (.add (.ofEntries [("a", Writers.noted "new")])), ⟨[], []⟩)] =
        Writers.handle (some pendingOnly) := by
  have opened : answer (.request .init) (Writers.handle none) ⟨[], []⟩ =
      (.ok [], Writers.handle (some Writers.bare), ⟨[], []⟩) := rfl
  have added : perform (.add (.ofEntries [("a", Writers.noted "new")]))
      (Writers.handle (some Writers.bare)) ⟨[], []⟩ =
        (.ok (), Writers.handle (some pendingOnly), ⟨[], []⟩) := Writers.handle_add rfl
  change (answer _ (answer _ (Writers.handle none) _).2.1 _).2.1 = _
  rw [opened, answer_request added]

/-- The flush of that handle fails for the length of a vector. -/
theorem flush_pendingOnly : ∃ length fs', answer (.request .flush)
    (Writers.handle (some pendingOnly)) (Writers.written shortSnapshot) =
      (.error (.dimension 1 length), Writers.handle (some pendingOnly), fs') := by
  have found_eq : ∀ {found after}, (Writers.handle (some pendingOnly)).load (Path.ofText "s.json")
      (Writers.written shortSnapshot) = (.ok found, after) → found = shortSnapshot := by
    intro found after loaded
    rw [load_eq] at loaded
    exact (Except.ok.inj (loads_shortSnapshot.symm.trans (Prod.mk.inj loaded).1)).symm
  rcases done : perform .flush (Writers.handle (some pendingOnly))
    (Writers.written shortSnapshot) with ⟨e | _, t, fs'⟩
  · obtain rfl := eq_of_perform_error done
    rcases Store.flush_error rfl (attempt_error done).2 with ⟨closed, -⟩ | ⟨h, held, -, failed |
      ⟨ready, prepared, failed | ⟨found, after, loaded, failed | ⟨-, -, failed⟩⟩⟩⟩
    · cases closed
    · exact absurd ((Writers.prepare_shelf _).symm.trans failed) nofun
    · obtain ⟨-, rfl⟩ := Prod.mk.inj ((Writers.prepare_shelf _).symm.trans prepared)
      rw [load_eq] at failed
      exact absurd (loads_shortSnapshot.symm.trans (Prod.mk.inj failed).1) nofun
    · obtain ⟨-, rfl⟩ := Prod.mk.inj ((Writers.prepare_shelf _).symm.trans prepared)
      rw [load_eq] at loaded
      obtain rfl := (Prod.mk.inj loaded).2
      rw [writeSnapshot_eq] at failed
      exact absurd ((Writers.put_shelf _ _).symm.trans failed) nofun
    · obtain ⟨-, r, -, -, rfl⟩ := indexOf_error failed
      exact ⟨_, fs', answer_request done⟩
  · exfalso
    obtain ⟨h, held, ⟨inMemory, -⟩ | ⟨p, path, ⟨clean, -⟩ | ⟨-, found, ready, after, prepared,
      loaded, -, rest⟩⟩⟩ := flush_cases (attempt_ok done)
    · cases inMemory
    · obtain rfl := Option.some.inj held
      exact absurd clean (by decide +kernel)
    · obtain rfl := Option.some.inj held
      obtain rfl := Option.some.inj path
      obtain ⟨-, rfl⟩ := Prod.mk.inj ((Writers.prepare_shelf _).symm.trans prepared)
      obtain rfl := found_eq loaded
      rcases rest with ⟨same, -⟩ | ⟨-, index, indexed, -⟩
      · exact absurd same (by decide +kernel)
      · have lengths := (eq_of_upsertAll indexed).2 ("z", []) (by decide +kernel)
        cases lengths

/-- In every run, a call that fails leaves the store as it was. It leaves the snapshot too, as long
as opening the lock and writes that fail do, if and only if it is no flush that fails late: such a
flush has put its pending records on disk. -/
theorem unchanged_iff_not_late {path : Option Path} {dimension : Nat} {metric : Metric}
    {calls : List (Call × FileSystem)} (reached : (closed path dimension metric).serve calls = s)
    (settles : ∀ p, path = some p → FileSystem.entry? (prepare p fs).2 p = fs.entry? p)
    (replaces : ∀ p, path = some p → ∀ ready, prepare p fs = (.ok (), ready) → Replaces p ready)
    (failed : answer c s fs = (.error e, t, fs')) :
    t = s ∧ (path = none → fs' = fs) ∧ ∀ p, path = some p →
      (∃ h found, Late s p fs c e h found ∧
        fs'.entry? p = .ok (.file (Snapshot.encode ⟨StoreError.schemaVersion, dimension, metric,
          overlay found h.dirty.keys h.records⟩))) ∨
        (∀ h found, ¬Late s p fs c e h found) ∧ fs'.entry? p = fs.entry? p := by
  obtain ⟨coherent, own, fits, same⟩ := (coherent_closed path dimension metric).serve calls
  rw [reached] at coherent own fits same
  change s.path = path at own
  change s.dimension = dimension at fits
  change s.metric = metric at same
  cases c with
  | query v k kind =>
    obtain ⟨-, rest⟩ := Prod.mk.inj failed
    obtain ⟨rfl, rfl⟩ := Prod.mk.inj rest
    exact ⟨rfl, fun _ => rfl, fun p _ => .inr ⟨fun h found late => (nomatch late.call), rfl⟩⟩
  | request q =>
    rcases run : perform q s fs with ⟨e' | _, u, after⟩
    · obtain ⟨cause, rest⟩ := Prod.mk.inj ((answer_request run).symm.trans failed)
      obtain ⟨rfl, rfl⟩ := Prod.mk.inj rest
      obtain rfl : e' = e := Except.error.inj cause
      refine ⟨eq_of_perform_error run, fun none_ => ?_, fun p some_ => ?_⟩
      · have kept := files_inMemory (own.trans none_) q fs
        rwa [run] at kept
      · rw [← fits, ← same]
        exact coherent.perform_error (own.trans some_) (settles p some_) (replaces p some_) run
    · cases (Prod.mk.inj ((answer_request run).symm.trans failed)).1

/-- A flush that puts its record beside a vector that is too short, and fails. -/
theorem late_shortVector : ∃ length fs', answer (.request .flush)
      (Writers.handle (some pendingOnly)) (Writers.written shortSnapshot) =
        (.error (.dimension 1 length), Writers.handle (some pendingOnly), fs') ∧
    fs'.entry? (Path.ofText "s.json") = .ok (.file (Snapshot.encode ⟨StoreError.schemaVersion, 1,
      .l2, mixedSnapshot⟩)) ∧ mixedSnapshot.keys = ["a", "z"] := by
  obtain ⟨length, fs', failed⟩ := flush_pendingOnly
  have replaces : Replaces (Path.ofText "s.json") (Writers.written shortSnapshot) := by
    intro c r after put_
    obtain ⟨rfl, rfl⟩ := Prod.mk.inj ((Writers.put_shelf _ c).symm.trans put_)
    exact ⟨fun _ => rfl, fun failed => absurd rfl failed⟩
  obtain ⟨-, -, ends⟩ := unchanged_iff_not_late serve_pendingOnly
    (fun p same => by obtain rfl := Option.some.inj same; rfl)
    (fun p same ready prepared => by
      obtain rfl := Option.some.inj same
      obtain ⟨-, rfl⟩ := Prod.mk.inj ((Writers.prepare_shelf _).symm.trans prepared)
      exact replaces) failed
  refine ⟨length, fs', failed, ?_, by decide +kernel⟩
  rcases ends _ rfl with ⟨h, found, late, there⟩ | ⟨never, -⟩
  · obtain rfl := Option.some.inj late.held
    obtain rfl := Except.ok.inj (loads_shortSnapshot.symm.trans late.loads)
    exact there
  · exact absurd ⟨rfl, rfl, rfl, loads_shortSnapshot, by decide +kernel,
      ⟨"z", Writers.blank 0, rfl, by decide +kernel, by decide⟩, length, rfl⟩
      (never pendingOnly shortSnapshot)

end Store

end CodeSearch
