import CodeSearch.Proofs.Indexing.Coverage
import CodeSearch.Proofs.Store.Sole

/-! # Orders of writing

When no two chunks of a run fight for one id, neither the size of batches nor the order of files
and writes matters: the store ends as it was, with one entry for each chunk over it.
-/

namespace CodeSearch

namespace Table

variable {α : Type} {es fs : List (String × α)}

/-- Entries that agree under each key are found under theirs. -/
theorem find?_eq_some_iff (agree : ∀ a ∈ es, ∀ b ∈ es, a.1 = b.1 → a.2 = b.2) {key : String}
    {value : α} : find? key es = some value ↔ (key, value) ∈ es := by
  refine ⟨mem_of_find?, fun listed => ?_⟩
  have there : (find? key es).isSome := find?_isSome_iff.mpr (List.mem_map_of_mem listed)
  obtain ⟨other, found⟩ := Option.isSome_iff_exists.mp there
  rw [found]
  exact congrArg some (agree _ (mem_of_find? found) _ listed rfl)

/-- Neither order nor repetition matters where entries agree under each key. -/
theorem insertAll_congr (agree : ∀ a ∈ es, ∀ b ∈ es, a.1 = b.1 → a.2 = b.2)
    (same : ∀ e, e ∈ fs ↔ e ∈ es) (t : Table α) : t.insertAll fs = t.insertAll es := by
  refine ext_get? fun key => ?_
  rw [get?_insertAll, get?_insertAll]
  congr 1
  refine Option.ext fun value => ?_
  rw [find?_eq_some_iff, find?_eq_some_iff, List.mem_reverse, List.mem_reverse, same]
  · simpa only [List.mem_reverse] using agree
  · simpa only [List.mem_reverse, same] using agree

end Table

/-- Each text has a vector of its own, whatever it is embedded with. -/
def Embedder.Pointwise {ε : Type} (m : Embedder ε) (f : String → Embedding) : Prop :=
  ∀ texts e, (m.embed texts e).1 = .ok (texts.map f)

/-- Each text has a vector of its own, whatever it is embedded with, if it can be embedded. -/
def Embedder.Steady {ε : Type} (m : Embedder ε) (f : String → Embedding) : Prop :=
  ∀ texts e vectors e', m.embed texts e = (.ok vectors, e') → vectors = texts.map f

theorem Embedder.Pointwise.steady {ε : Type} {m : Embedder ε} {f : String → Embedding}
    (pointwise : m.Pointwise f) : m.Steady f := by
  intro texts e vectors e' embedded
  have same := pointwise texts e
  rw [embedded] at same
  exact Except.ok.inj same

theorem Embedder.Steady.aligned {ε : Type} {m : Embedder ε} {f : String → Embedding}
    (steady : m.Steady f) : m.Aligned := by
  intro texts e vectors e' embedded
  rw [steady _ _ _ _ embedded, List.length_map]

namespace Indexing

variable {ε : Type} {m : Embedder ε} {f : String → Embedding} {l : Load} {g : List Chunk}
variable {x : StoreError}

/-- The entry of a chunk. -/
def entry (f : String → Embedding) (c : Chunk) : String × Record :=
  (c.id, Record.ofChunk (f c.content) c)

theorem Load.Made.vectors_eq (steady : m.Steady f) (made : l.Made m) :
    l.vectors = l.group.map fun c => f c.content := by
  obtain ⟨e, e', embedded⟩ := made
  rw [steady _ _ _ _ embedded, List.map_map]
  rfl

theorem Load.Made.entries_eq (steady : m.Steady f) (made : l.Made m) :
    l.entries = l.group.map (entry f) := by
  rw [Load.entries, entriesOf, made.vectors_eq steady]
  induction l.group with
  | nil => rfl
  | cons c group ih =>
    rw [List.map_cons, List.zip_cons_cons, List.map_cons, ih]
    rfl

theorem not_refuses (pointwise : m.Pointwise f) : ¬Refuses m g x := by
  rintro ⟨e, e', refused⟩
  have same := pointwise (g.map (·.content)) e
  rw [refused] at same
  cases same

namespace Crew

variable {s : Store} {h : Holdings} {n : Nat} {xs : List Source} {e : ε} {c : Crew ε Store}

/-- A ready store refuses no batch of vectors of its length. -/
theorem refused_of_run (pointwise : m.Pointwise f)
    (lengths : ∀ text, (f text).length = s.dimension) (serves : s.Serves h)
    (run : Run m storeBackend (start n xs ⟨e, s, []⟩) c) : Reply.refused c.bench.log = [] := by
  induction run with
  | refl => rfl
  | @tail c c' run step none_ =>
    rcases step.tasks_cases with ⟨bench, -⟩ | ⟨t, t', others, step, before, -⟩
    · rw [bench]
      exact none_
    · rcases step.answers_cases with ⟨log, -, -⟩ | ⟨l, flies, r, log, answered, -⟩
      · rw [log]
        exact none_
      · have holds := backend_of_run serves.1 run
        obtain ⟨loads, ahead, made⟩ := exists_made run t (before.mem_iff.mpr List.mem_cons_self)
        have madeHere := made.made l (made.held.mem_iff.mp (List.mem_append_left _ flies))
        have fits : ∀ v ∈ l.batch.vectors, v.length = c.bench.backend.dimension := by
          intro v listed
          obtain ⟨entry_, inside, rfl⟩ := List.mem_map.mp listed
          rw [madeHere.entries_eq pointwise.steady] at inside
          obtain ⟨d, -, rfl⟩ := List.mem_map.mp inside
          rw [holds]
          exact lengths _
        have servesHere : c.bench.backend.Serves
            (h.upserted ((Reply.taken c.bench.log).flatMap Load.entries)) := by
          rw [holds]
          exact ⟨rfl, serves.2⟩
        have added := Store.add_eq_ok servesHere (Batch.isEven_ofEntries _) fits
        rcases Store.tryAdd_cases l.batch c.bench.backend with ⟨u, -, done⟩ | ⟨x, failed, -⟩
        · obtain ⟨rfl, -⟩ := Prod.mk.inj (done.symm.trans answered)
          rw [log, Reply.refused_append, none_]
          rfl
        · cases added.symm.trans failed

end Crew

/-- All groups of a source are embedded, and its loads have the entries of its chunks. -/
theorem Task.Accounted.perm_entries {n : Nat} {t : Task} (positive : 0 < n)
    (pointwise : m.Pointwise f) (accounted : t.Accounted m n) : t.failure = none ∧
      ((t.joined.map Prod.fst).flatMap Load.entries).Perm (t.source.chunks.map (entry f)) := by
  obtain ⟨loads, joined, made, ⟨whole, parts⟩ | ⟨g, gs, x, -, refused, -⟩⟩ := accounted.attempts
  · refine ⟨whole, (joined.flatMap_right _).trans (.of_eq ?_)⟩
    have each : loads.map Load.entries = (loads.map Load.group).map (List.map (entry f)) := by
      rw [List.map_map]
      exact List.map_congr_left fun l listed => (made l listed).1.entries_eq pointwise.steady
    rw [List.flatMap_def, each, parts, ← List.map_flatten, flatten_groups positive]
  · exact absurd refused (not_refuses pointwise)

namespace Crew

section Settled

variable {σ : Type} {view : σ → Table Record} {old : Table Record} {n : Nat} {xs : List Source}
variable {c : Crew ε σ}

/-- Where nothing was refused, no source heard of a refusal. -/
theorem Settled.smooth (settled : c.Settled m n view old xs)
    (none_ : Reply.refused c.bench.log = []) : ∀ t ∈ c.finished, Reply.refused t.joined = [] := by
  intro t listed
  rw [Reply.refused_eq_nil_iff] at none_ ⊢
  intro a among
  exact none_ a (settled.log.mem_iff.mpr (List.mem_flatMap.mpr ⟨t, listed, among⟩))

theorem Settled.perm_warnings (settled : c.Settled m n view old xs) :
    (c.finished.flatMap Task.warnings).Perm
      (xs.flatMap fun x => x.extraction.warnings.map Warning.message) := by
  have folded : c.finished.flatMap Task.warnings = (c.finished.map Task.source).flatMap
      fun x => x.extraction.warnings.map Warning.message := by
    rw [List.flatMap_map]
    rfl
  rw [folded]
  exact settled.sources.flatMap_right _

/-- The report of a run in which all groups were embedded and no batch was refused. -/
theorem Settled.total_of_smooth (settled : c.Settled m n view old xs)
    (whole : ∀ t ∈ c.finished, t.failure = none)
    (smooth : ∀ t ∈ c.finished, Reply.refused t.joined = []) :
    c.total = Stats.counted xs.length (xs.map fun x => x.chunks.length).sum
      (xs.map fun x => (x.chunks.length + n - 1) / n).sum 0 (c.finished.flatMap Task.warnings)
      [] := by
  have silent : ∀ t ∈ c.finished, Reply.refusals t.source.name t.joined = [] := fun t listed =>
    Reply.refusals_eq_nil_iff.mpr (smooth t listed)
  have written : c.finished.map (fun t => (Reply.taken t.joined).length) =
      (c.finished.map Task.source).map fun x => (x.chunks.length + n - 1) / n := by
    rw [List.map_map]
    refine List.map_congr_left fun t listed => ?_
    have split := (settled.accounted t listed).split
    rw [silent t listed, (settled.accounted t listed).whole (whole t listed)] at split
    exact split
  have failed : (c.finished.map fun t => (Reply.refusals t.source.name t.joined).length).sum =
      0 := by
    rw [List.sum_eq_zero_iff_forall_eq_nat]
    intro k listed
    obtain ⟨t, among, rfl⟩ := List.mem_map.mp listed
    rw [silent t among, List.length_nil]
  have messages : c.finished.flatMap Task.messages = [] := by
    refine List.flatMap_eq_nil_iff.mpr fun t listed => ?_
    rw [Task.messages, whole t listed, silent t listed]
    rfl
  rw [settled.total, written, failed, messages, (settled.sources.map _).sum_nat]

end Settled

variable {s : Store} {h : Holdings} {n : Nat} {xs : List Source} {e : ε} {c : Crew ε Store}

/-- At the end of a schedule the store has taken in an entry for each chunk, in some order, and the
report says so. -/
theorem written_of_run (positive : 0 < n) (pointwise : m.Pointwise f)
    (lengths : ∀ text, (f text).length = s.dimension) (serves : s.Serves h)
    (run : Run m storeBackend (start n xs ⟨e, s, []⟩) c) (ended : c.working = []) :
    ∃ es warnings, es.Perm ((xs.flatMap Source.chunks).map (entry f)) ∧
      warnings.Perm (xs.flatMap fun x => x.extraction.warnings.map Warning.message) ∧
      c.bench.backend = { s with holdings := some (h.upserted es) } ∧
      c.total = Stats.counted xs.length (xs.map fun x => x.chunks.length).sum
        (xs.map fun x => (x.chunks.length + n - 1) / n).sum 0 warnings [] := by
  have settled :=
    settled_of_run positive pointwise.steady.aligned storeBackend_keeps run ended
  have holds := backend_of_run serves.1 run
  have none_ := refused_of_run pointwise lengths serves run
  have smooth := settled.smooth none_
  refine ⟨_, c.finished.flatMap Task.warnings, ?_, settled.perm_warnings, holds, ?_⟩
  · have all : (Reply.taken c.bench.log).Perm ((c.finished.flatMap Task.joined).map Prod.fst) := by
      have parts := Reply.perm_taken_refused c.bench.log
      rw [none_, List.append_nil] at parts
      exact parts.symm.trans (settled.log.map _)
    calc (Reply.taken c.bench.log).flatMap Load.entries
      List.Perm _ (((c.finished.flatMap Task.joined).map Prod.fst).flatMap Load.entries) :=
        all.flatMap_right _
      _ = c.finished.flatMap fun t => (t.joined.map Prod.fst).flatMap Load.entries := by
        rw [List.map_flatMap, List.flatMap_assoc]
      List.Perm _ (c.finished.flatMap fun t => t.source.chunks.map (entry f)) :=
        List.Perm.flatMap_left _ fun t listed =>
          ((settled.accounted t listed).perm_entries positive pointwise).2
      _ = ((c.finished.map Task.source).flatMap Source.chunks).map (entry f) := by
        rw [List.flatMap_map, List.map_flatMap]
      List.Perm _ _ := (settled.sources.flatMap_right _).map _
  · have whole : ∀ t ∈ c.finished, t.failure = none := fun t listed =>
      ((settled.accounted t listed).perm_entries positive pointwise).1
    exact settled.total_of_smooth whole smooth

end Crew

end Indexing

namespace Workshop

open Indexing

variable {ε : Type} {k : Workshop ε Store} {f : String → Embedding} {w w' : World ε Store}
variable {h : Holdings} {job : Job} {xs : List Source} {r : Except IndexError Stats}

/-- No two chunks fight for one id. -/
def Apart (cs : List Chunk) : Prop :=
  ∀ c ∈ cs, ∀ d ∈ cs, c.id = d.id → c.content = d.content ∧ c.toMetadata = d.toMetadata

theorem Apart.agree {cs : List Chunk} (apart : Apart cs) (f : String → Embedding) :
    ∀ a ∈ cs.map (entry f), ∀ b ∈ cs.map (entry f), a.1 = b.1 → a.2 = b.2 := by
  intro a inside b inside' same
  obtain ⟨c, listed, rfl⟩ := List.mem_map.mp inside
  obtain ⟨d, listed', rfl⟩ := List.mem_map.mp inside'
  obtain ⟨content, metadata⟩ := apart c listed d listed' same
  simp only [entry, Record.ofChunk, content, metadata]

/-- Chunks that are put in are then there. -/
theorem Apart.get?_insertAll {cs : List Chunk} {c : Chunk} (apart : Apart cs)
    (f : String → Embedding) (t : Table Record) (listed : c ∈ cs) :
    (t.insertAll (cs.map (entry f))).get? c.id = some (Record.ofChunk (f c.content) c) := by
  have there := List.mem_map_of_mem (f := entry f) listed
  rw [Table.get?_insertAll, (Table.find?_eq_some_iff _).mpr (List.mem_reverse.mpr there)]
  · rfl
  · simpa only [List.mem_reverse] using apart.agree f

theorem undertake_of_serves (store : k.backend = storeBackend) (serves : w.backend.Serves h)
    (planned : k.sources w.files job = .ok xs) : k.undertake job w = .ok xs := by
  have isReady : k.ready w = .ok () := by
    simp [ready, store, storeBackend, Store.ready_ok.mpr serves.1, Except.map]
  exact undertake_ok.mpr ⟨isReady, planned⟩

/-- What becomes of a job of a store that serves it: some entries in the order of some schedule, and
a flush. -/
theorem cases_of_runs (store : k.backend = storeBackend) (pointwise : k.embedder.Pointwise f)
    (lengths : ∀ text, (f text).length = w.backend.dimension)
    (positive : 0 < k.indexer.batchSize) (serves : w.backend.Serves h)
    (planned : k.sources w.files job = .ok xs) (runs : k.Runs job w (r, w')) :
    ∃ es warnings, es.Perm ((xs.flatMap Source.chunks).map (entry f)) ∧
      warnings.Perm (xs.flatMap fun x => x.extraction.warnings.map Warning.message) ∧
      ((∃ t, Store.flush { w.backend with holdings := some (h.upserted es) } w.files =
          (.ok t, w'.files) ∧ w'.backend = t ∧
          r = .ok (Stats.counted xs.length (xs.map fun x => x.chunks.length).sum
            (xs.map fun x => (x.chunks.length + k.indexer.batchSize - 1) / k.indexer.batchSize).sum
            0 warnings [])) ∨
        ∃ x, Store.flush { w.backend with holdings := some (h.upserted es) } w.files =
          (.error x, w'.files) ∧
          w'.backend = { w.backend with holdings := some (h.upserted es) } ∧
          r = .error (.store x)) := by
  have undertaken := undertake_of_serves store serves planned
  generalize outcome : (r, w') = out at runs
  cases runs with
  | refused refused => cases undertaken.symm.trans refused
  | @done xs' c undertaken' run ended =>
    obtain rfl := Except.ok.inj (undertaken.symm.trans undertaken')
    rw [store] at run
    obtain ⟨es, warnings, entries, noted, holds, total⟩ :=
      Crew.written_of_run positive pointwise lengths serves run ended
    refine ⟨es, warnings, entries, noted, ?_⟩
    rw [holds, total] at outcome
    exact finish_cases store outcome.symm

/-- Whatever the schedule, and whether the flush succeeds or not. -/
theorem records_of_runs (store : k.backend = storeBackend) (pointwise : k.embedder.Pointwise f)
    (lengths : ∀ text, (f text).length = w.backend.dimension)
    (positive : 0 < k.indexer.batchSize) (serves : w.backend.Serves h)
    (sole : w.backend.Sole w.files) (planned : k.sources w.files job = .ok xs)
    (apart : Apart (xs.flatMap Source.chunks)) (runs : k.Runs job w (r, w')) :
    ∃ h', w'.backend.Serves h' ∧
      h'.records = h.records.insertAll ((xs.flatMap Source.chunks).map (entry f)) ∧
      w'.backend.dimension = w.backend.dimension := by
  obtain ⟨es, _, entries, -, ends⟩ :=
    cases_of_runs store pointwise lengths positive serves planned runs
  have records : (h.upserted es).records =
      h.records.insertAll ((xs.flatMap Source.chunks).map (entry f)) :=
    Table.insertAll_congr (apart.agree f) (fun e => entries.mem_iff) _
  have servesThen : Store.Serves { w.backend with holdings := some (h.upserted es) }
      (h.upserted es) := ⟨rfl, serves.2⟩
  rcases ends with ⟨t, flushed, rfl, -⟩ | ⟨x, -, same, -⟩
  · obtain ⟨h', serves', kept, dimension⟩ := (sole.upserted serves.1 es).flush servesThen flushed
    exact ⟨h', serves', kept.trans records, dimension⟩
  · rw [same]
    exact ⟨_, servesThen, records, rfl⟩

/-- Whatever comes of a job, a store that nobody else writes stays so. -/
theorem sole_of_runs (store : k.backend = storeBackend) (sole : w.backend.Sole w.files)
    (sound : w.backend.path ≠ none → w.files.Sound) (runs : k.Runs job w (r, w')) :
    w'.backend.Sole w'.files := by
  generalize outcome : (r, w') = out at runs
  cases runs with
  | refused =>
    obtain ⟨-, rfl⟩ := Prod.mk.inj outcome
    exact sole
  | @done xs c undertaken run ended =>
    obtain ⟨isReady, -⟩ := undertake_ok.mp undertaken
    obtain ⟨h, held⟩ := holdings_of_ready store isReady
    rw [store] at run
    have holds := Crew.backend_of_run held run
    have soleThen : c.bench.backend.Sole w.files := by
      rw [holds]
      exact sole.upserted held _
    have soundThen : c.bench.backend.path ≠ none → w.files.Sound := by
      rw [holds]
      exact sound
    rcases finish_cases store outcome.symm with ⟨t, flushed, rfl, -⟩ | ⟨x, failed, same, -⟩
    · exact soleThen.flush_ok soundThen flushed
    · rw [same]
      exact soleThen.flush_error soundThen failed

/-- A job of a store that nobody else writes ends in every schedule, and then the store is as it
was with one entry for each chunk over it. The report counts the files, the chunks and the batches,
and has the warnings in some order and no errors. It is missing only if the flush fails, which in
memory it does not. To do the job again over the same input changes no record. -/
theorem overlay_of_runs (store : k.backend = storeBackend) (pointwise : k.embedder.Pointwise f)
    (lengths : ∀ text, (f text).length = w.backend.dimension)
    (positive : 0 < k.indexer.batchSize) (serves : w.backend.Serves h)
    (sole : w.backend.Sole w.files) (planned : k.sources w.files job = .ok xs)
    (apart : Apart (xs.flatMap Source.chunks)) :
    (∃ r w', k.Runs job w (r, w')) ∧ ∀ r w', k.Runs job w (r, w') →
      w'.backend.records = h.records.insertAll ((xs.flatMap Source.chunks).map (entry f)) ∧
      (∀ stats, r = .ok stats → ∃ warnings,
        warnings.Perm (xs.flatMap fun x => x.extraction.warnings.map Warning.message) ∧
        stats = Stats.counted xs.length (xs.map fun x => x.chunks.length).sum
          (xs.map fun x => (x.chunks.length + k.indexer.batchSize - 1) / k.indexer.batchSize).sum
          0 warnings []) ∧
      (∀ e, r = .error e → ∃ x, e = .store x ∧
        w'.backend.flush w.files = (.error x, w'.files) ∧ w.backend.path ≠ none) ∧
      ∀ r₂ w₂, (w.backend.path ≠ none → w.files.Sound) → k.sources w'.files job = .ok xs →
        k.Runs job w' (r₂, w₂) → w₂.backend.records = w'.backend.records := by
  refine ⟨⟨_, _, k.runs_run job w⟩, fun r w' runs => ?_⟩
  obtain ⟨h', serves', records, dimension⟩ :=
    records_of_runs store pointwise lengths positive serves sole planned apart runs
  obtain ⟨es, warnings, -, noted, ends⟩ :=
    cases_of_runs store pointwise lengths positive serves planned runs
  refine ⟨?_, ?_, ?_, ?_⟩
  · rw [Store.records, serves'.1, ← records]
  · rintro stats rfl
    rcases ends with ⟨t, -, -, report⟩ | ⟨x, -, -, failed⟩
    · exact ⟨warnings, noted, Except.ok.inj report⟩
    · cases failed
  · rintro e rfl
    rcases ends with ⟨t, -, -, report⟩ | ⟨x, flushed, same, failed⟩
    · cases report
    · refine ⟨x, Except.error.inj failed, by rw [same]; exact flushed, fun memory => ?_⟩
      cases (Store.flush_of_memory (s := { w.backend with holdings := some (h.upserted es) }) memory
        rfl).symm.trans flushed
  · intro r₂ w₂ sound again runs'
    have sole' := sole_of_runs store sole sound runs
    rw [← dimension] at lengths
    obtain ⟨h₂, serves₂, records₂, -⟩ :=
      records_of_runs store pointwise lengths positive serves' sole' again apart runs'
    rw [Store.records, Store.records, serves'.1, serves₂.1]
    change h₂.records = h'.records
    rw [records₂, records, ← Table.insertAll_append]
    exact Table.insertAll_congr (apart.agree f) (fun e => by rw [List.mem_append, or_self]) _

/-- An indexer for the text of two classes that leaves out what is inside them. -/
def wholes : Workshop Unit Store := { twins with indexer := ⟨.strict, 1, 1, ⟨[""]⟩⟩ }

/-- The two classes, by lines. -/
def classes : List Chunk :=
  (Pass.found ⟨.strict, .cpp, Pass.twinSource⟩ Pass.twinClasses).map
    (Found.toChunk Pass.twinSource "twins.cpp")

theorem extraction_wholes : Extraction.ofSource wholes.parse wholes.indexer.options Pass.twinSource
    "twins.cpp" "cpp" = ⟨classes, []⟩ := by
  have sorted : classes.Pairwise fun c d => decide (c.startLine ≤ d.startLine) = true := by
    decide +kernel
  have supported : Language.ofExtension? "cpp" = some .cpp := by decide +kernel
  have short : ¬Options.strict.maxBytes < Pass.twinSource.length := by decide +kernel
  have allowed : Options.strict.allows .cpp = true := by decide +kernel
  simp only [Extraction.ofSource, supported, Extraction.ofLanguage, wholes, twins, allowed,
    Bool.not_true, Bool.false_eq_true, if_false, short, if_true, Setting.chunks]
  exact congrArg (Extraction.mk · []) (List.mergeSort_of_pairwise sorted)

theorem chunks_wholes : [Source.mk "twins.cpp" ⟨classes, []⟩].flatMap Source.chunks = classes :=
  List.append_nil _

theorem apart_classes : Apart classes := by
  unfold Apart
  decide +kernel

/-- Both classes are written, each in a batch of its own. -/
theorem overlay_wholes : ∃ w',
    wholes.Runs (.source "twins.cpp" "cpp" Pass.twinSource) twinWorld
      (.ok (Stats.counted 1 2 2 0 [] []), w') ∧
      w'.backend.records =
        Table.empty.insertAll (classes.map (entry (Stub.embed 2))) := by
  have planned : wholes.sources twinWorld.files (.source "twins.cpp" "cpp" Pass.twinSource) =
      .ok [⟨"twins.cpp", ⟨classes, []⟩⟩] := by
    rw [sources, extraction_wholes]
  obtain ⟨⟨r, w', runs⟩, all⟩ := overlay_of_runs rfl (fun _ _ => rfl) (Stub.length_embed 2)
    (by decide) ⟨rfl, rfl⟩ (Store.sole_of_memory rfl) planned (chunks_wholes.symm ▸ apart_classes)
  obtain ⟨records, report, fails, -⟩ := all r w' runs
  rcases r with e | stats
  · obtain ⟨-, -, -, onDisk⟩ := fails e rfl
    exact absurd rfl onDisk
  · obtain ⟨warnings, noted, rfl⟩ := report stats rfl
    obtain rfl := List.Perm.eq_nil noted
    have two : classes.length = 2 := by decide +kernel
    rw [chunks_wholes] at records
    simp only [List.map_cons, List.map_nil, Source.chunks, two] at runs
    exact ⟨w', runs, records⟩

end Workshop

end CodeSearch
