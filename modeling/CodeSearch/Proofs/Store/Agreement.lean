import Mathlib.Data.List.Perm.Subperm
import CodeSearch.Proofs.Store.Ledger

/-! # Records and index of a store

A store keeps its records by id, their vectors in an index, and the ids that wait for a flush.
The three agree after every call, whether it succeeds or fails and whatever the files hold.
-/

namespace CodeSearch

namespace Table

variable {α β : Type} {f : α → β} {t : Table β} {u : Table α}

theorem find?_map (f : α → β) (key : String) (es : List (String × α)) :
    find? key (es.map fun e => (e.1, f e.2)) = (find? key es).map f := by
  induction es with
  | nil => rfl
  | cons e es ih =>
    simp only [List.map_cons, find?]
    split
    · rfl
    · exact ih

/-- A table with the mapped look-ups of another has its mapped entries. -/
theorem entries_of_get?_map (h : ∀ key, t.get? key = (u.get? key).map f) :
    t.entries = u.entries.map fun e => (e.1, f e.2) := by
  have ascending : (u.entries.map fun e => (e.1, f e.2)).Pairwise fun a b => a.1 < b.1 :=
    List.pairwise_map.mpr u.ascending
  refine entries_eq_of_get? t.ascending ascending fun key => ?_
  rw [find?_map]
  exact h key

theorem keys_of_get?_map (h : ∀ key, t.get? key = (u.get? key).map f) : t.keys = u.keys := by
  simp [keys, entries_of_get?_map h]

theorem size_of_get?_map (h : ∀ key, t.get? key = (u.get? key).map f) : t.size = u.size := by
  simp [size, entries_of_get?_map h]

theorem nodup_keys (t : Table α) : t.keys.Nodup := by
  refine List.pairwise_map.mpr (t.ascending.imp fun {a b} before same => ?_)
  rw [same] at before
  exact String.lt_irrefl _ before

/-- Fewer keys take less room. -/
theorem size_le_of_keys_subset (h : ∀ key ∈ t.keys, key ∈ u.keys) : t.size ≤ u.size := by
  have room := (List.subperm_of_subset t.nodup_keys h).length_le
  simpa [keys, size] using room

end Table

theorem Index.mem_of_search {x : Index} {v : Embedding} {k : Nat} {passes : String → Bool}
    {hits : List Hit} (found : x.search v k passes = .ok hits) :
    ∀ hit ∈ hits, hit.1 ∈ x.vectors.keys := by
  intro hit inside
  unfold search at found
  cases checked : x.check v with
  | error e => simp [checked, Except.map] at found
  | ok _ =>
    simp only [checked, Except.map] at found
    rw [← Except.ok.inj found] at inside
    have scored := List.mem_mergeSort.mp (List.mem_of_mem_take inside)
    obtain ⟨e, listed, rfl⟩ := List.mem_map.mp (List.mem_filter.mp scored).1
    exact List.mem_map_of_mem (List.mem_filter.mp listed).1

namespace Holdings

/-- The index has the vectors of the records under the same ids, all of one length, and what
waits for a flush is among the records. -/
structure Agrees (dimension : Nat) (h : Holdings) : Prop where
  fits : h.index.dimension = dimension
  vectors : ∀ id, h.index.vectors.get? id = (h.records.get? id).map Record.vector
  lengths : ∀ id r, h.records.get? id = some r → r.vector.length = dimension
  dirty : ∀ id ∈ h.dirty.keys, id ∈ h.records.keys

/-- Put records in one after the other, up to the first that is refused. -/
def addAll : List (String × Record) → Holdings → Except StoreError Unit × Holdings
  | [], h => (.ok (), h)
  | e :: es, h =>
    match Store.Holdings.add h e with
    | .ok h' => addAll es h'
    | .error failure => (.error failure, h)

variable {dimension : Nat} {h : Holdings} {es : List (String × Record)}

theorem Agrees.upserted (agrees : h.Agrees dimension)
    (fits : ∀ e ∈ es, e.2.vector.length = dimension) : (h.upserted es).Agrees dimension := by
  refine ⟨agrees.fits, fun id => ?_, fun id r there => ?_, fun id waits => ?_⟩
  · change (h.index.vectors.insertAll (es.map fun e => (e.1, e.2.vector))).get? id =
      ((h.records.insertAll es).get? id).map Record.vector
    rw [Table.get?_insertAll, Table.get?_insertAll, ← List.map_reverse, Table.find?_map,
      agrees.vectors, Option.map_or]
  · rcases Table.mem_of_get?_insertAll there with added | before
    · exact fits (id, r) added
    · exact agrees.lengths id r before
  · rw [mem_dirty_upserted] at waits
    exact Table.mem_keys_insertAll.mpr (waits.imp_right (agrees.dirty id))

/-- No record whose vector fits is refused midway. -/
theorem Agrees.addAll (agrees : h.Agrees dimension)
    (fits : ∀ e ∈ es, e.2.vector.length = dimension) : h.addAll es = (.ok (), h.upserted es) := by
  induction es generalizing h with
  | nil => rfl
  | cons e es ih =>
    obtain ⟨first, rest⟩ := List.forall_mem_cons.mp fits
    have next : (h.upserted [e]).Agrees dimension :=
      agrees.upserted (List.forall_mem_singleton.mpr first)
    rw [Holdings.addAll, add_eq (first.trans agrees.fits.symm)]
    dsimp only
    rw [ih next rest, ← upserted_append, List.singleton_append]

theorem Agrees.flushed (agrees : h.Agrees dimension) :
    Agrees dimension { h with dirty := .empty } :=
  { agrees with dirty := nofun }

theorem Agrees.cleared (agrees : h.Agrees dimension) :
    Agrees dimension ⟨.empty, h.index.clear, .empty⟩ :=
  ⟨agrees.fits, fun _ => rfl, nofun, nofun⟩

end Holdings

/-- What a store can be asked for: a request that may change it, or a query. -/
inductive Store.Call where
  | request (q : Store.Request)
  | query (v : Embedding) (k : Nat) (kind : Option Kind)

namespace Store

/-- The records of a store; it has none before it is ready. -/
def records (s : Store) : Table Record :=
  match s.holdings with
  | none => .empty
  | some h => h.records

variable {s t : Store} {fs fs' : FileSystem} {c : Call} {q : Request} {h : Holdings}

/-- The answer to a call, with the store and the files after it. -/
def answer : Call → Store → FileSystem → Except StoreError (List Neighbor) × Store × FileSystem
  | .request q, s, fs =>
    let (r, t, after) := perform q s fs
    (r.map fun _ => [], t, after)
  | .query v k kind, s, fs => (s.query v k kind, s, fs)

theorem answer_request {r : Except StoreError Unit} (run : perform q s fs = (r, t, fs')) :
    answer (.request q) s fs = (r.map fun _ => [], t, fs') := by
  simp only [answer, run]

/-- The store after some calls. Each is made on files of its own, so anything may have been done
to them in between. -/
def serve (s : Store) : List (Call × FileSystem) → Store
  | [] => s
  | (c, fs) :: rest => serve (answer c s fs).2.1 rest

theorem agrees_of_indexOf {records : Table Record} {index : Index}
    (ok : s.indexOf records = .ok index) :
    Holdings.Agrees s.dimension ⟨records, index, .empty⟩ := by
  obtain ⟨rfl, lengths⟩ := eq_of_upsertAll ok
  refine ⟨rfl, fun id => ?_, fun id r there => ?_, nofun⟩
  · change (Table.empty.insertAll (records.entries.map fun e => (e.1, e.2.vector))).get? id =
      (records.get? id).map Record.vector
    rw [Table.get?_insertAll, ← List.map_reverse, Table.find?_map, Table.find?_reverse_entries,
      Table.get?_empty, Option.or_none]
  · exact lengths (id, r.vector) (List.mem_map_of_mem (Table.mem_entries_iff.mpr there))

/-- Another state of a store with the same path, length of vectors and metric. -/
def Alike (s t : Store) : Prop :=
  t.path = s.path ∧ t.dimension = s.dimension ∧ t.metric = s.metric

/-- Whatever a store holds agrees. -/
def Coherent (s : Store) : Prop := ∀ h, s.holdings = some h → h.Agrees s.dimension

theorem coherent_closed (path : Option Path) (dimension : Nat) (metric : Metric) :
    (closed path dimension metric).Coherent := nofun

theorem coherent_holding (agrees : h.Agrees s.dimension) :
    Coherent { s with holdings := some h } := by
  intro h' same
  obtain rfl := Option.some.inj same
  exact agrees

/-- An `init` that succeeds takes records that it has an index of. -/
theorem init_cases (run : s.init fs = (.ok t, fs')) : ∃ records index,
    s.indexOf records = .ok index ∧ t = { s with holdings := some ⟨records, index, .empty⟩ } := by
  rcases path : s.path with _ | p
  · simp only [init, path] at run
    obtain ⟨records, mid, -, run⟩ := StoreAction.bind_ok.mp run
    obtain ⟨index, after, checked, done⟩ := StoreAction.bind_ok.mp run
    obtain ⟨indexed, rfl⟩ := StoreAction.check_ok.mp checked
    obtain ⟨rfl, -⟩ := StoreAction.pure_ok.mp done
    exact ⟨records, index, indexed, rfl⟩
  · rw [← path]
    exact (init_ok path run).2

/-- A clearance that succeeds leaves nothing. -/
theorem clear_cases (run : s.clear fs = (.ok t, fs')) : ∃ h, s.holdings = some h ∧
    t = { s with holdings := some ⟨.empty, h.index.clear, .empty⟩ } := by
  rcases path : s.path with _ | p
  · obtain ⟨h, mid, checked, run⟩ := StoreAction.bind_ok.mp run
    obtain ⟨ready, rfl⟩ := StoreAction.check_ok.mp checked
    simp only [path] at run
    obtain ⟨rfl, -⟩ := StoreAction.pure_ok.mp run
    exact ⟨h, ready_ok.mp ready, rfl⟩
  · obtain ⟨h, -, held, -, -, same⟩ := clear_ok path run
    exact ⟨h, held, path ▸ same⟩

theorem tryAdd_cases (b : Batch) (s : Store) :
    (∃ t, s.add b = .ok t ∧ s.tryAdd b = (.ok (), t)) ∨
      ∃ e, s.add b = .error e ∧ s.tryAdd b = (.error e, s) := by
  cases added : s.add b with
  | ok t => exact .inl ⟨t, rfl, by simp [tryAdd, added]⟩
  | error e => exact .inr ⟨e, rfl, by simp [tryAdd, added]⟩

theorem attempt_cases (f : Store → StoreAction Store) (s : Store) (fs : FileSystem) :
    (∃ t after, f s fs = (.ok t, after) ∧ attempt f s fs = (.ok (), t, after)) ∨
      ∃ e after, f s fs = (.error e, after) ∧ attempt f s fs = (.error e, s, after) := by
  rcases run : f s fs with ⟨e | t, after⟩
  · exact .inr ⟨e, after, rfl, by simp [attempt, run]⟩
  · exact .inl ⟨t, after, rfl, by simp [attempt, run]⟩

variable {e : StoreError}

/-- A request that fails leaves the store as it was. -/
theorem eq_of_perform_error (run : perform q s fs = (.error e, t, fs')) : t = s := by
  cases q with
  | add b =>
    rcases tryAdd_cases b s with ⟨u, -, done⟩ | ⟨e', -, failed⟩
    · rw [perform, done] at run
      cases (Prod.mk.inj run).1
    · rw [perform, failed] at run
      exact (Prod.mk.inj (Prod.mk.inj run).2).1.symm
  | drop => cases (Prod.mk.inj run).1
  | _ => exact (attempt_error run).1

theorem Coherent.add {b : Batch} (coherent : s.Coherent) (added : s.add b = .ok t) :
    t.Coherent ∧ Alike s t := by
  obtain ⟨-, fits, h, held, rfl⟩ := add_cases added
  have lengths : ∀ e ∈ b.entries, e.2.vector.length = s.dimension :=
    fun e listed => fits _ (Batch.mem_entries_vector listed)
  exact ⟨coherent_holding ((coherent h held).upserted lengths), rfl, rfl, rfl⟩

theorem Coherent.flush (coherent : s.Coherent) (run : s.flush fs = (.ok t, fs')) :
    t.Coherent ∧ Alike s t := by
  obtain ⟨h, held, ⟨-, rfl, -⟩ | ⟨p, -, ⟨-, rfl, -⟩ | ⟨-, disk, ready, after, -, -, -, rest⟩⟩⟩ :=
    flush_cases run
  · exact ⟨coherent_holding (coherent h held).flushed, rfl, rfl, rfl⟩
  · exact ⟨coherent, rfl, rfl, rfl⟩
  · rcases rest with ⟨-, rfl⟩ | ⟨-, index, indexed, rfl⟩
    · exact ⟨coherent_holding (coherent h held).flushed, rfl, rfl, rfl⟩
    · exact ⟨coherent_holding (agrees_of_indexOf indexed), rfl, rfl, rfl⟩

theorem Coherent.perform_ok (coherent : s.Coherent)
    (run : perform q s fs = (.ok (), t, fs')) : t.Coherent ∧ Alike s t := by
  cases q with
  | init =>
    obtain ⟨records, index, indexed, rfl⟩ := init_cases (attempt_ok run)
    exact ⟨coherent_holding (agrees_of_indexOf indexed), rfl, rfl, rfl⟩
  | add b =>
    rcases tryAdd_cases b s with ⟨u, added, done⟩ | ⟨e, -, failed⟩
    · rw [perform, done] at run
      obtain rfl := (Prod.mk.inj (Prod.mk.inj run).2).1
      exact coherent.add added
    · rw [perform, failed] at run
      cases (Prod.mk.inj run).1
  | flush => exact coherent.flush (attempt_ok run)
  | clear =>
    obtain ⟨h, held, rfl⟩ := clear_cases (attempt_ok run)
    exact ⟨coherent_holding (coherent h held).cleared, rfl, rfl, rfl⟩
  | drop =>
    obtain rfl := (Prod.mk.inj (Prod.mk.inj run).2).1
    exact ⟨coherent_closed _ _ _, rfl, rfl, rfl⟩

/-- One call, whatever comes of it. -/
theorem Coherent.answer (coherent : s.Coherent) (c : Call) (fs : FileSystem) :
    (answer c s fs).2.1.Coherent ∧ Alike s (answer c s fs).2.1 := by
  cases c with
  | query v k kind => exact ⟨coherent, rfl, rfl, rfl⟩
  | request q =>
    rcases run : perform q s fs with ⟨e | _, t, after⟩
    · rw [answer_request run, eq_of_perform_error run]
      exact ⟨coherent, rfl, rfl, rfl⟩
    · rw [answer_request run]
      exact coherent.perform_ok run

/-- Any number of calls. -/
theorem Coherent.serve (coherent : s.Coherent) (calls : List (Call × FileSystem)) :
    (s.serve calls).Coherent ∧ Alike s (s.serve calls) := by
  induction calls generalizing s with
  | nil => exact ⟨coherent, rfl, rfl, rfl⟩
  | cons call calls ih =>
    obtain ⟨next, path, dimension, metric⟩ := coherent.answer call.1 call.2
    obtain ⟨last, path', dimension', metric'⟩ := ih next
    exact ⟨last, path'.trans path, dimension'.trans dimension, metric'.trans metric⟩

/-! ## Which distances a store takes -/

/-- The index of a store takes the distances that the store was opened with. -/
structure Measures (metric : Metric) (s : Store) : Prop where
  own : s.metric = metric
  index : ∀ h, s.holdings = some h → h.index.metric = metric

variable {metric : Metric}

theorem measures_closed (path : Option Path) (dimension : Nat) (metric : Metric) :
    (closed path dimension metric).Measures metric :=
  ⟨rfl, nofun⟩

theorem measures_holding (own : s.metric = metric) (index : h.index.metric = metric) :
    Measures metric { s with holdings := some h } := by
  refine ⟨own, fun h' same => ?_⟩
  obtain rfl := Option.some.inj same
  exact index

theorem metric_of_indexOf {records : Table Record} {index : Index}
    (ok : s.indexOf records = .ok index) : index.metric = s.metric := by
  obtain ⟨rfl, -⟩ := eq_of_upsertAll ok
  rfl

theorem Measures.flush (measures : s.Measures metric) (run : s.flush fs = (.ok t, fs')) :
    t.Measures metric := by
  obtain ⟨own, index⟩ := measures
  obtain ⟨h, held, ⟨-, rfl, -⟩ | ⟨p, -, ⟨-, rfl, -⟩ | ⟨-, disk, ready, after, -, -, -, rest⟩⟩⟩ :=
    flush_cases run
  · exact measures_holding own (index h held)
  · exact ⟨own, index⟩
  · rcases rest with ⟨-, rfl⟩ | ⟨-, other, indexed, rfl⟩
    · exact measures_holding own (index h held)
    · exact measures_holding own ((metric_of_indexOf indexed).trans own)

/-- A request, whatever comes of it. -/
theorem Measures.perform {r : Except StoreError Unit} (measures : s.Measures metric)
    (run : perform q s fs = (r, t, fs')) : t.Measures metric := by
  cases r with
  | error e => exact eq_of_perform_error run ▸ measures
  | ok _ =>
    obtain ⟨own, index⟩ := measures
    cases q with
    | init =>
      obtain ⟨records, other, indexed, rfl⟩ := init_cases (attempt_ok run)
      exact measures_holding own ((metric_of_indexOf indexed).trans own)
    | add b =>
      rcases tryAdd_cases b s with ⟨u, added, done⟩ | ⟨e, -, failed⟩
      · rw [Store.perform, done] at run
        obtain rfl := (Prod.mk.inj (Prod.mk.inj run).2).1
        obtain ⟨-, -, h, held, rfl⟩ := add_cases added
        exact measures_holding own (index h held)
      · rw [Store.perform, failed] at run
        cases (Prod.mk.inj run).1
    | flush => exact Measures.flush ⟨own, index⟩ (attempt_ok run)
    | clear =>
      obtain ⟨h, held, rfl⟩ := clear_cases (attempt_ok run)
      exact measures_holding own (index h held)
    | drop =>
      obtain rfl := (Prod.mk.inj (Prod.mk.inj run).2).1
      exact own ▸ measures_closed _ _ _

/-! ## What a store that agrees serves -/

/-- Every hit has its record. -/
theorem query_of_search {dimension : Nat} {v : Embedding} {k : Nat} {kind : Option Kind}
    {hits : List Hit} (held : s.holdings = some h) (agrees : h.Agrees dimension)
    (found : h.index.search v k (isOfKind h.records kind) = .ok hits) :
    ∃ ns, s.query v k kind = .ok ns ∧ ns.map (fun n => (n.id, n.distance)) = hits := by
  have asked : s.query v k kind = .ok (hits.filterMap fun hit =>
      (h.records.get? hit.1).map fun r => ⟨hit.1, hit.2, r.document, r.metadata⟩) := by
    rw [query, ready_ok.mpr held]
    change (do let hits ← h.index.search v k (isOfKind h.records kind); _) = _
    rw [found]
    rfl
  have there : ∀ hit ∈ hits, hit.1 ∈ h.records.keys := by
    rw [← Table.keys_of_get?_map agrees.vectors]
    exact Index.mem_of_search found
  refine ⟨_, asked, ?_⟩
  clear found asked
  induction hits with
  | nil => rfl
  | cons hit hits ih =>
    obtain ⟨id, x⟩ := hit
    obtain ⟨first, rest⟩ := List.forall_mem_cons.mp there
    obtain ⟨r, stored⟩ := Option.isSome_iff_exists.mp (Table.mem_keys_iff.mp first)
    simp only [List.filterMap_cons, stored, Option.map_some, List.map_cons]
    rw [ih rest]

/-- In every run, however its calls end and whatever the files hold, a ready store has an index of
exactly its records, and vectors of its own length only. A query loses no hit, the count is that
of the index, no more ids wait than there are records, and a batch that fits is taken to its end. -/
theorem agrees_of_serve {path : Option Path} {dimension : Nat} {metric : Metric}
    {calls : List (Call × FileSystem)} (reached : (closed path dimension metric).serve calls = s)
    (held : s.holdings = some h) :
    h.Agrees dimension ∧ h.index.vectors.keys = h.records.keys ∧
      (∀ v k kind hits, h.index.search v k (isOfKind h.records kind) = .ok hits →
        ∃ ns, s.query v k kind = .ok ns ∧ ns.map (fun n => (n.id, n.distance)) = hits) ∧
      s.count = .ok h.index.size ∧ s.pending ≤ h.index.size ∧
      ∀ b : Batch, b.isEven = true → (∀ v ∈ b.vectors, v.length = dimension) →
        h.addAll b.entries = (.ok (), h.upserted b.entries) ∧
          s.add b = .ok { s with holdings := some (h.upserted b.entries) } := by
  obtain ⟨coherent, -, fits, -⟩ := (coherent_closed path dimension metric).serve calls
  rw [reached] at coherent fits
  change s.dimension = dimension at fits
  have agrees := coherent h held
  rw [fits] at agrees
  refine ⟨agrees, Table.keys_of_get?_map agrees.vectors, fun v k kind hits found =>
    query_of_search held agrees found, ?_, ?_, fun b even lengths => ⟨?_, ?_⟩⟩
  · rw [count, ready_ok.mpr held, Index.size, Table.size_of_get?_map agrees.vectors]
    rfl
  · rw [pending, held, Index.size, Table.size_of_get?_map agrees.vectors]
    exact Table.size_le_of_keys_subset agrees.dirty
  · exact agrees.addAll fun e listed => lengths _ (Batch.mem_entries_vector listed)
  · exact add_eq_ok ⟨held, agrees.fits.trans fits.symm⟩ even (fits.symm ▸ lengths)

/-- A store that was asked too early, that met a broken snapshot and a directory in its place, and
that was given a vector of a wrong length. -/
theorem agrees_afterFailures : ∃ h, ((closed (some (Path.ofText "s.json")) 1 .l2).serve
    [(.request (.add (.ofEntries [("a", Writers.blank 1)])), ⟨[], []⟩),
      (.request .init, ⟨[], []⟩),
      (.request (.add (.ofEntries [("b", Writers.blank 1), ("a", Writers.blank 1)])), ⟨[], []⟩),
      (.request .init, ⟨[(["s.json"], .file [])], []⟩),
      (.request (.add (.ofEntries [("c", Writers.blank 2)])), ⟨[], []⟩),
      (.request .flush, ⟨[(["s.json"], .directory)], []⟩),
      (.query [] 3 none, ⟨[], []⟩)]).holdings = some h ∧
    h.dirty.keys = ["a", "b"] ∧ h.Agrees 1 := by
  generalize reached : (closed _ _ _).serve _ = s
  have waits : s.holdings.map (fun h => h.dirty.keys) = some ["a", "b"] := by
    rw [← reached]
    decide +kernel
  obtain ⟨h, held, keys⟩ := Option.map_eq_some_iff.mp waits
  exact ⟨h, held, keys, (agrees_of_serve reached held).1⟩

end Store

end CodeSearch
