import CodeSearch.Proofs.Extraction.Overlap
import CodeSearch.Proofs.Indexing.Accounting
import CodeSearch.Proofs.Indexing.Identity

/-! # What indexing keeps

A run without failures writes every chunk under its id, whatever the schedule. Chunks under one id
replace each other, so a run keeps them all if, and only if, no two that differ start on one line
with one text. It reports no failure either way.
-/

namespace CodeSearch

namespace Store

/-- The record under an id. -/
def record? (s : Store) (id : String) : Option Record := s.holdings.bind fun h => h.records.get? id

/-- The record under the id of a chunk is that of the chunk. -/
def Keeps (s : Store) (c : Chunk) : Prop :=
  ∃ r, s.record? c.id = some r ∧ r.document = c.content ∧ r.metadata = c.toMetadata

/-- A flush keeps what waits to be flushed. -/
theorem record?_of_flush {s t : Store} {h : Holdings} {fs fs' : FileSystem} {id : String}
    (held : s.holdings = some h) (dirty : id ∈ h.dirty.keys)
    (ok : s.flush fs = (.ok t, fs')) :
    (h.records.get? id).isSome → t.record? id = h.records.get? id := by
  intro there
  obtain ⟨r, hr⟩ := Option.isSome_iff_exists.mp there
  obtain ⟨h', held', cases⟩ := flush_cases ok
  obtain rfl : h = h' := Option.some.inj (held.symm.trans held')
  rcases cases with ⟨-, rfl, -⟩ | ⟨p, -, ⟨-, rfl, -⟩ | ⟨-, disk, -, -, -, -, -, merged⟩⟩
  · rfl
  · simp [record?, held]
  · rcases merged with ⟨-, rfl⟩ | ⟨-, index, -, rfl⟩
    · rfl
    · change (overlay disk h.dirty.keys h.records).get? id = _
      rw [get?_overlay, if_pos dirty, hr, Option.some_or]

end Store

namespace Indexing

variable {ε : Type} {m : Embedder ε}

namespace Load

variable {l : Load} {c : Chunk} {e : String × Record}

/-- A load with a vector for each text has an entry for each chunk. -/
theorem exists_entry (even : l.vectors.length = l.group.length) (listed : c ∈ l.group) :
    ∃ v, (c.id, Record.ofChunk v c) ∈ l.entries := by
  have firsts : (l.group.zip l.vectors).map Prod.fst = l.group :=
    List.map_fst_zip (Nat.le_of_eq even.symm)
  rw [← firsts] at listed
  obtain ⟨⟨c, v⟩, paired, rfl⟩ := List.mem_map.mp listed
  exact ⟨v, List.mem_map_of_mem paired⟩

/-- Each entry of a load is that of one of its chunks. -/
theorem exists_chunk (listed : e ∈ l.entries) :
    ∃ c ∈ l.group, ∃ v, e = (c.id, Record.ofChunk v c) := by
  obtain ⟨⟨c, v⟩, paired, rfl⟩ := List.mem_map.mp listed
  exact ⟨c, (List.of_mem_zip paired).1, v, rfl⟩

end Load

namespace Crew

section Settled

variable {σ : Type} {view : σ → Table Record} {old : Table Record} {n : Nat} {xs : List Source}
variable {c : Crew ε σ}

/-- Where the report has no errors, no task has any. -/
theorem Settled.isClean (settled : c.Settled m n view old xs) (clean : c.total.isClean = true) :
    ∀ t ∈ c.finished, t.stats.isClean = true := by
  intro t listed
  have silent : c.finished.flatMap Task.messages = [] := by
    rw [settled.total] at clean
    simp only [Stats.isClean, Stats.counted, Bool.and_eq_true, List.isEmpty_iff] at clean
    exact clean.2
  have none_ := List.flatMap_eq_nil_iff.mp silent t listed
  rw [Task.messages, List.append_eq_nil_iff, Reply.refusals_eq_nil_iff] at none_
  exact t.isClean_iff.mpr ⟨by simpa using none_.1, none_.2⟩

/-- What the backend has taken is what its tasks heard of. -/
theorem Settled.perm_taken (settled : c.Settled m n view old xs) :
    (Reply.taken c.bench.log).Perm (c.finished.flatMap fun t => Reply.taken t.joined) := by
  refine ((settled.log.filter _).map _).trans (.of_eq ?_)
  rw [List.filter_flatMap, List.map_flatMap]
  rfl

/-- In a run without errors every chunk is in some load that was taken, and in no other. -/
theorem Settled.perm_chunks (settled : c.Settled m n view old xs)
    (clean : c.total.isClean = true) :
    ((Reply.taken c.bench.log).flatMap Load.group).Perm (xs.flatMap Source.chunks) :=
  calc (Reply.taken c.bench.log).flatMap Load.group
    List.Perm _ ((c.finished.flatMap fun t => Reply.taken t.joined).flatMap Load.group) :=
      settled.perm_taken.flatMap_right _
    _ = c.finished.flatMap fun t => (Reply.taken t.joined).flatMap Load.group :=
      List.flatMap_assoc
    List.Perm _ (c.finished.flatMap fun t => t.source.chunks) :=
      List.Perm.flatMap_left _ fun t listed =>
        (settled.accounted t listed).clean.mp (settled.isClean clean t listed)
    _ = (c.finished.map Task.source).flatMap Source.chunks := (List.flatMap_map ..).symm
    List.Perm _ _ := settled.sources.flatMap_right _

theorem Settled.even (settled : c.Settled m n view old xs) :
    ∀ l ∈ Reply.taken c.bench.log, l.vectors.length = l.group.length := by
  intro l listed
  obtain ⟨t, among, heard⟩ := List.mem_flatMap.mp (settled.perm_taken.mem_iff.mp listed)
  obtain ⟨loads, answered, made, -⟩ := (settled.accounted t among).attempts
  have joined : l ∈ t.joined.map Prod.fst :=
    (Reply.perm_taken_refused t.joined).mem_iff.mpr (List.mem_append_left _ heard)
  exact (made l (answered.mem_iff.mp joined)).2

end Settled

variable {s : Store} {h : Holdings} {n : Nat} {xs : List Source} {e : ε} {c : Crew ε Store}

/-- A store has the entries of the loads that it took over what it had. -/
theorem backend_of_run (held : s.holdings = some h)
    (run : Run m storeBackend (start n xs ⟨e, s, []⟩) c) :
    c.bench.backend =
      { s with holdings := some (h.upserted ((Reply.taken c.bench.log).flatMap Load.entries)) } := by
  induction run with
  | refl =>
    obtain ⟨path, dimension, metric, holdings⟩ := s
    obtain rfl := held
    rfl
  | @tail c c' run step ih =>
    rcases step.tasks_cases with ⟨bench, -⟩ | ⟨t, t', others, step, -, -⟩
    · rw [bench]
      exact ih
    · rcases step.answers_cases with ⟨log, same, -⟩ | ⟨l, -, r, log, answered, -⟩
      · rw [log, same]
        exact ih
      · rcases Store.tryAdd_cases l.batch c.bench.backend with ⟨u, ok, done⟩ | ⟨x, -, failed⟩
        · obtain ⟨rfl, same⟩ := Prod.mk.inj (done.symm.trans answered)
          obtain ⟨-, -, h', held', rfl⟩ := Store.add_cases ok
          have taken : Reply.taken c'.bench.log = Reply.taken c.bench.log ++ [l] := by
            rw [log, Reply.taken_append]
            rfl
          rw [ih] at held'
          obtain rfl := Option.some.inj held'
          have entries : l.batch.entries = l.entries := Batch.entries_ofEntries _
          rw [← same, taken, List.flatMap_append, List.flatMap_singleton,
            Holdings.upserted_append, ih, entries]
        · obtain ⟨rfl, same⟩ := Prod.mk.inj (failed.symm.trans answered)
          have taken : Reply.taken c'.bench.log = Reply.taken c.bench.log := by
            rw [log, Reply.taken_append]
            exact List.append_nil _
          rw [← same, taken, ih]

end Crew

end Indexing

namespace Extraction

/-- Chunks that start on one line with one text are the same to a user. -/
def TellsApart (x : Extraction) : Prop :=
  ∀ c ∈ x.chunks, ∀ d ∈ x.chunks, c.startLine = d.startLine → c.content = d.content → c.key = d.key

/-- No two ids of the chunks are equal by a collision of digests. -/
def CollisionFree (x : Extraction) : Prop :=
  ∀ c ∈ x.chunks, ∀ d ∈ x.chunks, c.id = d.id →
    idBytes c.source c.startLine c.content = idBytes d.source d.startLine d.content

variable {parse : Parser} {o : Options} {source : Bytes} {name ext : String}

theorem id_eq_iff (free : (ofSource parse o source name ext).CollisionFree) {c d : Chunk}
    (hc : c ∈ (ofSource parse o source name ext).chunks)
    (hd : d ∈ (ofSource parse o source name ext).chunks) :
    c.id = d.id ↔ c.startLine = d.startLine ∧ c.content = d.content := by
  constructor
  · intro same
    have bytes := free c hc d hd same
    rw [source_eq hc, source_eq hd] at bytes
    exact idBytes_inj bytes
  · rintro ⟨line, content⟩
    rw [Chunk.id, Chunk.id, source_eq hc, source_eq hd, line, content]

end Extraction

namespace Workshop

open Indexing

variable {ε : Type} {k : Workshop ε Store} {job : Job} {xs : List Source} {name ext : String}
variable {source : Bytes} {w w' : World ε Store} {r : Except IndexError Stats} {stats : Stats}

/-- The last step of a job is a flush of its store. -/
theorem finish_cases (store : k.backend = storeBackend) (done : k.finish stats w = (r, w')) :
    (∃ t, w.backend.flush w.files = (.ok t, w'.files) ∧ w'.backend = t ∧ r = .ok stats) ∨
      ∃ x, w.backend.flush w.files = (.error x, w'.files) ∧ w'.backend = w.backend ∧
        r = .error (.store x) := by
  have flushes : k.backend.flush = Store.attempt Store.flush := by rw [store]; rfl
  simp only [finish, flushes] at done
  rcases Store.attempt_cases Store.flush w.backend w.files with
    ⟨t, after, flushed, ended⟩ | ⟨x, after, failed, ended⟩
  · rw [ended] at done
    obtain ⟨rfl, rfl⟩ := Prod.mk.inj done
    exact .inl ⟨t, flushed, rfl, rfl⟩
  · rw [ended] at done
    obtain ⟨rfl, rfl⟩ := Prod.mk.inj done
    exact .inr ⟨x, failed, rfl, rfl⟩

theorem holdings_of_ready (store : k.backend = storeBackend) (isReady : k.ready w = .ok ()) :
    ∃ h, w.backend.holdings = some h := by
  cases held : w.backend.holdings with
  | none => simp [ready, store, storeBackend, Store.ready, held, Except.map] at isReady
  | some h => exact ⟨h, rfl⟩

/-- A job without failures keeps a record under the id of each chunk, that of a chunk. -/
theorem exists_kept (store : k.backend = storeBackend) (aligned : k.embedder.Aligned)
    (positive : 0 < k.indexer.batchSize) (planned : k.sources w.files job = .ok xs)
    (runs : k.Runs job w (.ok stats, w')) (clean : stats.isClean = true) :
    ∀ c ∈ xs.flatMap Source.chunks, ∃ d ∈ xs.flatMap Source.chunks,
      d.id = c.id ∧ ∃ v, w'.backend.record? c.id = some (Record.ofChunk v d) := by
  generalize outcome : (Except.ok stats, w') = out at runs
  cases runs with
  | refused => cases (Prod.mk.inj outcome).1
  | @done xs' crew undertaken run ended =>
    obtain ⟨isReady, planned'⟩ := undertake_ok.mp undertaken
    obtain rfl := Except.ok.inj (planned.symm.trans planned')
    rcases finish_cases store outcome.symm with ⟨t, flush, rfl, same⟩ | ⟨x, -, -, failed⟩
    swap
    · cases failed
    obtain rfl := Except.ok.inj same
    rw [store] at run
    obtain ⟨h, held⟩ := holdings_of_ready store isReady
    have settled := Crew.settled_of_run positive aligned storeBackend_keeps run ended
    have holds := Crew.backend_of_run held run
    rw [holds] at flush
    intro c listed
    have written : c.id ∈
        ((Reply.taken crew.bench.log).flatMap Load.entries).map Prod.fst := by
      obtain ⟨l, taken, inside⟩ :=
        List.mem_flatMap.mp ((settled.perm_chunks clean).mem_iff.mpr listed)
      obtain ⟨v, there⟩ := Load.exists_entry (settled.even l taken) inside
      exact List.mem_map_of_mem (List.mem_flatMap.mpr ⟨l, taken, there⟩)
    -- The last chunk under the id is the one that stays.
    have found := written
    rw [← List.mem_reverse, ← List.map_reverse, ← Table.find?_isSome_iff] at found
    obtain ⟨record, last⟩ := Option.isSome_iff_exists.mp found
    obtain ⟨l, taken, there⟩ :=
      List.mem_flatMap.mp (List.mem_reverse.mp (Table.mem_of_find? last))
    obtain ⟨d, inside, v, same⟩ := Load.exists_chunk there
    obtain ⟨id, rfl⟩ := Prod.mk.inj same
    have dirty := Holdings.mem_dirty_upserted (h := h).mpr (.inl written)
    refine ⟨d, ?_, id.symm, v, ?_⟩
    · exact (settled.perm_chunks clean).mem_iff.mp (List.mem_flatMap.mpr ⟨l, taken, inside⟩)
    · have kept : (h.upserted ((Reply.taken crew.bench.log).flatMap Load.entries)).records.get?
          c.id = some (Record.ofChunk v d) := by
        rw [Holdings.upserted, Table.get?_insertAll, last, Option.some_or]
      rw [Store.record?_of_flush rfl dirty flush (by simp [kept]), kept]

/-- In every schedule without failures all chunks are kept if, and only if, those that start on one
line with one text are the same to a user, which is also when no two others share an id. -/
theorem keeps_iff_tellsApart (store : k.backend = storeBackend) (aligned : k.embedder.Aligned)
    (nests : Extraction.Nests k.parse) (positive : 0 < k.indexer.batchSize)
    (free : (Extraction.ofSource k.parse k.indexer.options source name ext).CollisionFree)
    (runs : k.Runs (.source name ext source) w (.ok stats, w')) (clean : stats.isClean = true) :
    let x := Extraction.ofSource k.parse k.indexer.options source name ext
    ((∀ c ∈ x.chunks, w'.backend.Keeps c) ↔ x.TellsApart) ∧
      ((∀ c ∈ x.chunks, ∀ d ∈ x.chunks, c.id = d.id → c.key = d.key) ↔ x.TellsApart) := by
  intro x
  have planned : k.sources w.files (.source name ext source) = .ok [⟨name, x⟩] := rfl
  have kept := exists_kept store aligned positive planned runs clean
  have single : [Source.mk name x].flatMap Source.chunks = x.chunks := List.flatMap_singleton ..
  rw [single] at kept
  refine ⟨⟨?_, ?_⟩, ⟨?_, ?_⟩⟩
  · intro keeps c hc d hd line content
    have same : c.id = d.id := (Extraction.id_eq_iff free hc hd).mpr ⟨line, content⟩
    obtain ⟨r, record, document, metadata⟩ := keeps c hc
    obtain ⟨r', record', document', metadata'⟩ := keeps d hd
    rw [← same, record] at record'
    obtain rfl := Option.some.inj record'
    have := metadata.symm.trans metadata'
    exact Chunk.key_eq_iff.mpr ⟨content, congrArg (·.source) this, line, congrArg (·.kind) this,
      congrArg (·.names) this⟩
  · intro apart c hc
    obtain ⟨d, hd, same, v, record⟩ := kept c hc
    obtain ⟨line, content⟩ := (Extraction.id_eq_iff free hd hc).mp same
    obtain ⟨-, metadata⟩ :=
      Extraction.metadata_eq_of_key_eq nests hd hc (apart d hd c hc line content)
    exact ⟨_, record, content, metadata⟩
  · intro apart c hc d hd line content
    exact apart c hc d hd ((Extraction.id_eq_iff free hc hd).mpr ⟨line, content⟩)
  · intro apart c hc d hd same
    obtain ⟨line, content⟩ := (Extraction.id_eq_iff free hc hd).mp same
    exact apart c hc d hd line content

/-- An indexer for the text of two classes, with a store in memory. -/
def twins : Workshop Unit Store where
  indexer := ⟨.standard, standardBatchSize, 1, ⟨[""]⟩⟩
  parse _ source := if source = Pass.twinSource then some Pass.twinClasses else none
  embedder := stubEmbedder 2
  backend := storeBackend

def twinWorld : World Unit Store :=
  ⟨(), ⟨none, 2, .l2, some ⟨.empty, .empty 2 .l2, .empty⟩⟩, ⟨[], []⟩⟩

/-- The equal methods of the two classes replace each other, and the run reports nothing. -/
theorem not_keeps_twins :
    ∃ stats w', twins.indexSource "twins.cpp" "cpp" Pass.twinSource twinWorld = (.ok stats, w') ∧
      stats.isClean = true ∧
      ¬∀ c ∈ (Extraction.ofSource twins.parse twins.indexer.options Pass.twinSource
        "twins.cpp" "cpp").chunks, w'.backend.Keeps c := by
  have extracted : Extraction.ofSource twins.parse twins.indexer.options Pass.twinSource
      "twins.cpp" "cpp" = ⟨(Pass.found ⟨.standard, .cpp, Pass.twinSource⟩ Pass.twinClasses).map
        (Found.toChunk Pass.twinSource "twins.cpp"), []⟩ := by
    have sorted : ((Pass.found ⟨.standard, .cpp, Pass.twinSource⟩ Pass.twinClasses).map
        (Found.toChunk Pass.twinSource "twins.cpp")).Pairwise
          fun c d => decide (c.startLine ≤ d.startLine) = true := by decide +kernel
    have supported : Language.ofExtension? "cpp" = some .cpp := by decide +kernel
    have short : ¬Options.standard.maxBytes < Pass.twinSource.length := by decide +kernel
    have allowed : Options.standard.allows .cpp = true := by decide +kernel
    simp only [Extraction.ofSource, supported, Extraction.ofLanguage, twins, allowed, Bool.not_true,
      Bool.false_eq_true, if_false, short, if_true, Setting.chunks]
    rw [List.mergeSort_of_pairwise sorted]
  have clean : (twins.indexSource "twins.cpp" "cpp" Pass.twinSource twinWorld).1.map Stats.isClean =
      .ok true := by
    unfold indexSource Workshop.write
    rw [extracted]
    decide +kernel
  have nests : Extraction.Nests twins.parse := by
    intro l source t parsed
    simp only [twins] at parsed
    split at parsed
    · cases parsed
      decide
    · cases parsed
  have aligned : twins.embedder.Aligned := by
    intro texts s vectors s' embedded
    cases embedded
    exact List.length_map ..
  rcases run : twins.indexSource "twins.cpp" "cpp" Pass.twinSource twinWorld with
    ⟨error | stats, w'⟩
  · rw [run] at clean
    cases clean
  · rw [run] at clean
    have isClean : stats.isClean = true := Except.ok.inj clean
    refine ⟨stats, w', rfl, isClean, fun keeps => ?_⟩
    have free : (Extraction.ofSource twins.parse twins.indexer.options Pass.twinSource
        "twins.cpp" "cpp").CollisionFree := by
      rw [extracted]
      unfold Extraction.CollisionFree
      decide +kernel
    have runs := twins.runs_run (.source "twins.cpp" "cpp" Pass.twinSource) twinWorld
    rw [Workshop.run, run] at runs
    have apart := (keeps_iff_tellsApart rfl aligned nests (by decide) free runs isClean).1.mp keeps
    rw [extracted] at apart
    unfold Extraction.TellsApart at apart
    revert apart
    decide +kernel

end Workshop

end CodeSearch
