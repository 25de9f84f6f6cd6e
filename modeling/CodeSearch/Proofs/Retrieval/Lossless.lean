import CodeSearch.Proofs.Indexing.Identity
import CodeSearch.Proofs.Indexing.Plant
import CodeSearch.Retrieval.Retrieve

/-! # Retrieval from indexed stores

A store that is filled by indexing alone holds no two chunks with one key, so ranking the answers
to a question removes only those that are not under the threshold.
-/

namespace CodeSearch

theorem Hit.rank_le {a b : Hit} (le : Hit.le a b = true) : a.2.rank ≤ b.2.rank := by
  simp only [Hit.le, Bool.or_eq_true, Bool.and_eq_true, decide_eq_true_eq] at le
  omega

namespace Index

variable {x : Index} {v : Embedding} {k : Nat} {passes : String → Bool} {hits : List Hit}

theorem nodup_scores (x : Index) (v : Embedding) (passes : String → Bool) :
    ((x.scores v passes).map Prod.fst).Nodup := by
  have listed : ((x.scores v passes).map Prod.fst).Sublist x.vectors.keys := by
    refine (List.filter_sublist.map _).trans ?_
    rw [List.map_map]
    exact List.filter_sublist.map _
  exact listed.nodup x.vectors.nodup_keys

/-- Scores come in order, and each id once. -/
theorem pairwise_scores (x : Index) (v : Embedding) (passes : String → Bool) :
    ((x.scores v passes).mergeSort Hit.le).Pairwise fun a b => a.1 ≠ b.1 ∧ Hit.le a b = true := by
  have apart : ((x.scores v passes).mergeSort Hit.le).Pairwise fun a b => a.1 ≠ b.1 :=
    List.pairwise_map.mp (((List.mergeSort_perm ..).map _).nodup_iff.mpr (x.nodup_scores v passes))
  exact apart.and (List.pairwise_mergeSort Hit.le_trans Hit.le_total _)

/-- Hits come by distance, and each id once. -/
theorem search_ok (found : x.search v k passes = .ok hits) :
    hits.Pairwise fun a b => a.1 ≠ b.1 ∧ a.2.rank ≤ b.2.rank := by
  unfold search at found
  cases checked : x.check v with
  | error e => simp [checked, Except.map] at found
  | ok _ =>
    simp only [checked, Except.map] at found
    rw [← Except.ok.inj found]
    exact ((x.pairwise_scores v passes).sublist (List.take_sublist ..)).imp fun ⟨other, le⟩ =>
      ⟨other, Hit.rank_le le⟩

end Index

namespace Ranking

/-- Chunks with keys of their own are all left. -/
theorem firsts_eq_self {seen : List Key} {cs : List Chunk}
    (apart : cs.Pairwise fun c d => c.key ≠ d.key) (fresh : ∀ c ∈ cs, c.key ∉ seen) :
    firsts seen cs = cs := by
  induction cs generalizing seen with
  | nil => rfl
  | cons c cs ih =>
    obtain ⟨first, rest⟩ := List.pairwise_cons.mp apart
    rw [firsts, if_neg (fresh c List.mem_cons_self), ih rest]
    intro d later same
    rcases List.mem_cons.mp same with own | before
    · exact first d later own.symm
    · exact fresh d (List.mem_cons_of_mem _ later) before

end Ranking

/-- Of answers in order, ranking removes those that are not under the threshold and those whose key
was there before. -/
theorem rankNeighbors_of_sorted {threshold : Single} {ns : List Neighbor}
    (sorted : ns.Pairwise fun a b => a.distance.rank ≤ b.distance.rank) :
    rankNeighbors threshold ns =
      Ranking.firsts [] ((ns.filter fun n => n.distance.lt threshold).map Neighbor.toChunk) := by
  have kept : (ns.map Neighbor.toChunk).filter (Ranking.isUnder threshold) =
      (ns.filter fun n => n.distance.lt threshold).map Neighbor.toChunk := by
    rw [List.filter_map]
    rfl
  have order : ((ns.filter fun n => n.distance.lt threshold).map Neighbor.toChunk).Pairwise
      fun c d => decide (Ranking.place c ≤ Ranking.place d) = true := by
    refine List.pairwise_map.mpr ((sorted.filter _).imp fun le => ?_)
    exact decide_eq_true le
  rw [rankNeighbors, rank, kept, List.mergeSort_of_pairwise order]

/-- Answers in order with keys of their own stay as they are, if they are under the threshold. -/
theorem rankNeighbors_eq {threshold : Single} {ns : List Neighbor}
    (sorted : ns.Pairwise fun a b => a.distance.rank ≤ b.distance.rank)
    (apart : ns.Pairwise fun a b => a.toChunk.key ≠ b.toChunk.key) :
    rankNeighbors threshold ns =
      (ns.filter fun n => n.distance.lt threshold).map Neighbor.toChunk := by
  rw [rankNeighbors_of_sorted sorted, Ranking.firsts_eq_self]
  · exact List.pairwise_map.mpr (apart.filter _)
  · exact fun _ _ => List.not_mem_nil

namespace Store

variable {s : Store} {v : Embedding} {k : Nat} {kind : Option Kind} {ns : List Neighbor}

/-- An answer has the document and the metadata of the record under its id. The answers come by
distance, and each id once. -/
theorem query_ok (asked : s.query v k kind = .ok ns) :
    (∀ n ∈ ns, ∃ r, s.records.get? n.id = some r ∧ n.document = r.document ∧
      n.metadata = r.metadata) ∧
      ns.Pairwise fun a b => a.id ≠ b.id ∧ a.distance.rank ≤ b.distance.rank := by
  cases held : s.holdings with
  | none =>
    simp only [query, ready, held] at asked
    cases asked
  | some h =>
    cases found : h.index.search v k (isOfKind h.records kind) with
    | error e =>
      simp only [query, ready, held, found, bind, Except.bind] at asked
      cases asked
    | ok hits =>
      simp only [query, ready, held, found, bind, Except.bind, pure, Except.pure] at asked
      obtain rfl := Except.ok.inj asked
      constructor
      · intro n listed
        obtain ⟨hit, -, there⟩ := List.mem_filterMap.mp listed
        obtain ⟨r, stored, rfl⟩ := Option.map_eq_some_iff.mp there
        refine ⟨r, ?_, rfl, rfl⟩
        rw [records, held]
        exact stored
      · refine List.pairwise_filterMap.mpr ?_
        refine (Index.search_ok found).imp fun apart a here b there => ?_
        obtain ⟨r, -, rfl⟩ := Option.map_eq_some_iff.mp here
        obtain ⟨r', -, rfl⟩ := Option.map_eq_some_iff.mp there
        exact apart

theorem exists_query {h : Holdings} (serves : s.Serves h) (fits : v.length = s.dimension) (k : Nat)
    (kind : Option Kind) : ∃ ns, s.query v k kind = .ok ns := by
  have checked : h.index.check v = .ok () := by
    rw [Index.check, if_pos (fits.trans serves.2.symm)]
  simp [query, ready_ok.mpr serves.1, Index.search, checked, Except.map, bind, Except.bind, pure,
    Except.pure]

end Store

namespace Indexing

variable {f : String → Embedding} {cs : List Chunk} {id id' : String} {r r' : Record}

/-- Records that tell nothing but chunks: each has the id and the vector of its text and is one of
the chunks, and no two have one key. -/
structure Faithful (f : String → Embedding) (cs : List Chunk) (records : Table Record) : Prop where
  id_eq : ∀ id r, records.get? id = some r →
    id = chunkId r.metadata.source r.metadata.startLine r.document
  vector_eq : ∀ id r, records.get? id = some r → r.vector = f r.document
  extracted : ∀ id r, records.get? id = some r →
    ∃ c ∈ cs, r.document = c.content ∧ r.metadata = c.toMetadata
  apart : ∀ id r id' r', records.get? id = some r → records.get? id' = some r' →
    r.toChunk.key = r'.toChunk.key → id = id'

theorem Shows.exists_chunk (shows_ : Shows f cs id r) :
    ∃ c ∈ cs, id = c.id ∧ r = Record.ofChunk (f c.content) c := by
  obtain ⟨c, listed, same⟩ := List.mem_map.mp shows_
  obtain ⟨rfl, rfl⟩ := Prod.mk.inj same
  exact ⟨c, listed, rfl, rfl⟩

/-- The key of a record tells its id. -/
theorem Shows.id_eq (shows_ : Shows f cs id r) (shows' : Shows f cs id' r')
    (same : r.toChunk.key = r'.toChunk.key) : id = id' := by
  obtain ⟨c, -, rfl, rfl⟩ := shows_.exists_chunk
  obtain ⟨d, -, rfl, rfl⟩ := shows'.exists_chunk
  obtain ⟨content, source, line, -, -⟩ := Chunk.key_eq_iff.mp same
  change c.content = d.content at content
  change c.source = d.source at source
  change c.startLine = d.startLine at line
  rw [Chunk.id, Chunk.id, source, line, content]

theorem faithful_of_shows {records : Table Record} (shown : records.All (Shows f cs)) :
    Faithful f cs records := by
  refine ⟨fun id r there => ?_, fun id r there => ?_, fun id r there => ?_,
    fun id r id' r' there there' => (shown id r there).id_eq (shown id' r' there')⟩ <;>
  obtain ⟨c, listed, rfl, rfl⟩ := (shown id r there).exists_chunk
  · rfl
  · rfl
  · exact ⟨c, listed, rfl, rfl⟩

end Indexing

section Retrieve

variable {ε : Type} {m : Embedder ε} {f : String → Embedding} {cs : List Chunk} {s : Store}
variable {q : Request} {e e' : ε} {v : Embedding} {text : String} {chunks : List Chunk}

theorem Embedder.Steady.embedOne_eq (steady : m.Steady f)
    (embedded : m.embedOne text e = (.ok v, e')) : v = f text := by
  unfold embedOne at embedded
  split at embedded
  · cases (Prod.mk.inj embedded).1
  · cases (Prod.mk.inj embedded).1
  · rename_i w ws e₁ found
    have same := steady _ _ _ _ found
    rw [← Except.ok.inj (Prod.mk.inj embedded).1]
    exact (List.cons.inj same).1

theorem Embedder.Pointwise.exists_embedOne (pointwise : m.Pointwise f) (text : String) (e : ε) :
    ∃ e', m.embedOne text e = (.ok (f text), e') := by
  have vectors := pointwise [text] e
  rcases given : m.embed [text] e with ⟨r, e'⟩
  rw [given] at vectors
  obtain rfl : r = .ok [f text] := vectors
  exact ⟨e', by simp [embedOne, given]⟩

/-- What a retrieval that succeeds has done. -/
theorem retrieve_ok (steady : m.Steady f) (run : retrieve m storeBackend q e s = (.ok chunks, e')) :
    (q.limit = 0 ∧ chunks = []) ∨ q.limit ≠ 0 ∧ ∃ ns,
      s.query (f q.query) q.limit q.kind = .ok ns ∧ chunks = rankNeighbors q.threshold ns := by
  unfold retrieve at run
  split at run
  · cases (Prod.mk.inj run).1
  · split at run
    · cases (Prod.mk.inj run).1
    · split at run
      · cases (Prod.mk.inj run).1
      · split at run
        · rename_i none_
          exact .inl ⟨none_, (Except.ok.inj (Prod.mk.inj run).1).symm⟩
        · rename_i some_
          split at run
          · cases (Prod.mk.inj run).1
          · rename_i v e₁ embedded
            split at run
            · cases (Prod.mk.inj run).1
            · rename_i ns asked
              rw [steady.embedOne_eq embedded] at asked
              exact .inr ⟨some_, ns, asked, (Except.ok.inj (Prod.mk.inj run).1).symm⟩

/-- A ready store and an embedder that gives vectors of its length serve every proper request. -/
theorem exists_retrieve {h : Holdings} (pointwise : m.Pointwise f)
    (fits : (f q.query).length = s.dimension) (serves : s.Serves h)
    (asks : Text.isBlankText q.query = false) (number : q.threshold.isNaN = false) (e : ε) :
    ∃ chunks e', retrieve m storeBackend q e s = (.ok chunks, e') := by
  have isReady : storeBackend.ready s = .ok () := by
    simp [storeBackend, Store.ready_ok.mpr serves.1, Except.map]
  by_cases none_ : q.limit = 0
  · refine ⟨[], e, ?_⟩
    simp [retrieve, asks, number, isReady, none_]
  · obtain ⟨e', embedded⟩ := pointwise.exists_embedOne q.query e
    obtain ⟨ns, asked⟩ := Store.exists_query serves fits q.limit q.kind
    have answered : storeBackend.query (f q.query) q.limit q.kind s = .ok ns := asked
    refine ⟨rankNeighbors q.threshold ns, e', ?_⟩
    simp [retrieve, asks, number, isReady, none_, embedded, answered]

/-- The answers of a store whose records show chunks are these chunks, each at its distance, and
ranking leaves all that are under the threshold, in their order. -/
theorem rankNeighbors_of_shows {threshold : Single} {k : Nat} {kind : Option Kind}
    {ns : List Neighbor} (shown : s.records.All (Indexing.Shows f cs))
    (asked : s.query v k kind = .ok ns) :
    rankNeighbors threshold ns =
        (ns.filter fun n => n.distance.lt threshold).map Neighbor.toChunk ∧
      ∀ n ∈ ns, ∃ c ∈ cs, n.toChunk = c.located n.distance := by
  obtain ⟨stored, apart⟩ := Store.query_ok asked
  constructor
  · refine rankNeighbors_eq (apart.imp And.right) ?_
    refine apart.imp_of_mem fun {a b} listed listed' other same => other.1 ?_
    obtain ⟨r, there, document, metadata⟩ := stored a listed
    obtain ⟨r', there', document', metadata'⟩ := stored b listed'
    refine (shown _ _ there).id_eq (shown _ _ there') ?_
    simpa only [Neighbor.toChunk, Record.toChunk, Chunk.key, document, metadata, document',
      metadata'] using same
  · intro n listed
    obtain ⟨r, there, document, metadata⟩ := stored n listed
    obtain ⟨c, among, -, rfl⟩ := (shown _ _ there).exists_chunk
    refine ⟨c, among, ?_⟩
    rw [Neighbor.toChunk, document, metadata]
    rfl

end Retrieve

/-- Who asks for nothing finds nothing. -/
theorem Store.query_zero {s : Store} {v : Embedding} {kind : Option Kind} {ns : List Neighbor}
    (asked : s.query v 0 kind = .ok ns) : ns = [] := by
  cases held : s.holdings with
  | none =>
    simp only [query, ready, held] at asked
    cases asked
  | some h =>
    cases checked : h.index.check v with
    | error e =>
      simp [query, ready, held, Index.search, checked, bind, Except.bind, Except.map] at asked
    | ok _ =>
      simpa [query, ready, held, Index.search, checked, bind, Except.bind, pure, Except.pure,
        Except.map] using asked

namespace Plant

open Indexing

variable {ε : Type} {m : Embedder ε} {f : String → Embedding} {e : ε} {path : Option Path}
variable {dimension : Nat → Nat} {metric : Nat → Metric} {files : FileSystem} {P : Plant ε}

/-- Whatever becomes of the jobs of a plant, and whatever its handles are asked for, the records of
each handle and those that are found on disk are faithful to what was extracted. So a retrieval
leaves out none of the answers that are under the threshold, and each is a chunk that was extracted,
at its distance. Lengths of vectors and lines are words. -/
theorem lossless_of_run (steady : m.Steady f) (reads : ∀ text, ∀ x ∈ f text, Json.ReadsBack x)
    (word : ∀ n, dimension n < wordSize) (barren : ∀ p, path = some p → Store.Barren p files)
    (run : Run m (start e path dimension metric files) P)
    (lines : ∀ c ∈ P.extracted, c.startLine < wordSize ∧ c.endLine < wordSize) :
    (∀ p d records, path = some p → Store.fresh p d P.writers.files = .ok records →
      Indexing.Faithful f P.extracted records) ∧
    ∀ n, Indexing.Faithful f P.extracted (P.writers.stores n).records ∧
      ∀ q e e' chunks, retrieve m storeBackend q e (P.writers.stores n) = (.ok chunks, e') →
        (q.limit = 0 → chunks = []) ∧
        (q.limit ≠ 0 → ∃ ns, (P.writers.stores n).query (f q.query) q.limit q.kind = .ok ns) ∧
        ∀ ns, (P.writers.stores n).query (f q.query) q.limit q.kind = .ok ns →
          chunks = (ns.filter fun a => a.distance.lt q.threshold).map Neighbor.toChunk ∧
          ∀ a ∈ ns, ∃ c ∈ P.extracted, c.distance = none ∧ a.toChunk = c.located a.distance := by
  have genuine := (genuine_start barren).run steady reads word run lines
  refine ⟨fun p d records own loaded => ?_, fun n => ⟨?_, fun q e e' chunks retrieved => ?_⟩⟩
  · have load : (Store.closed (some p) d .l2).load p P.writers.files =
        (.ok records, P.writers.files) := by
      rw [Store.load_eq]
      rw [Store.fresh_eq] at loaded
      exact congrArg (·, P.writers.files) loaded
    exact Indexing.faithful_of_shows ((genuine.files p own).load load).2
  · exact Indexing.faithful_of_shows (genuine.stores n).records
  · have shown := (genuine.stores n).records
    rcases retrieve_ok steady retrieved with ⟨none_, rfl⟩ | ⟨some_, ns, asked, rfl⟩
    · refine ⟨fun _ => rfl, fun some_ => absurd none_ some_, fun ns asked => ?_⟩
      rw [none_] at asked
      obtain rfl := Store.query_zero asked
      exact ⟨rfl, nofun⟩
    · refine ⟨fun none_ => absurd none_ some_, fun _ => ⟨ns, asked⟩, fun ns' asked' => ?_⟩
      obtain rfl := Except.ok.inj (asked.symm.trans asked')
      obtain ⟨ranked, each⟩ := rankNeighbors_of_shows shown asked
      refine ⟨ranked, fun a listed => ?_⟩
      obtain ⟨c, among, same⟩ := each a listed
      exact ⟨c, among, genuine.extracted c among, same⟩

/-- Where all texts lie if no model looks at them. -/
def origin (_ : String) : Embedding := [Binary.zero false]

/-- The indexer of the text of two classes, with all texts in one place. -/
def flat : Workshop Unit Store :=
  { Workshop.wholes with embedder := ⟨fun texts s => (.ok (texts.map origin), s)⟩ }

/-- A question about them. -/
def question : Request := ⟨"two", 5, Binary.ofRatio false 1 2, none⟩

/-- Handles on a snapshot that is not there. -/
def idle : Plant Unit := start () (Path.ofText "s.json") (fun _ => 1) (fun _ => .l2) ⟨[], []⟩

/-- The first of them is ready. -/
def opened : Plant Unit where
  writers := ⟨Function.update idle.writers.stores 0 (Writers.handle (some Writers.bare)), ⟨[], []⟩⟩
  embedder := ()
  tasks := []
  extracted := []

theorem run_opened : Run flat.embedder idle opened := by
  refine .single ?_
  have first := Step.request (m := flat.embedder) (P := idle) 0 (q := .init) nofun
  rwa [Writers.step_eq Writers.handle_init] at first

theorem sole_bare : (Writers.handle (some Writers.bare)).Sole ⟨[], []⟩ := by
  intro p h found path held none_ id
  obtain rfl := Option.some.inj path
  obtain rfl := Option.some.inj held
  rw [Writers.vacant_bare.barren.locked _ _ none_]
  exact (or_self_iff ..).symm

/-- The two classes are indexed to the first handle. -/
theorem run_flat : ∃ P h, Run flat.embedder idle P ∧ P.extracted = Workshop.classes ∧
    (P.writers.stores 0).Serves h ∧ (P.writers.stores 0).dimension = 1 ∧
      h.records = Table.empty.insertAll (Workshop.classes.map (entry origin)) := by
  have planned : flat.sources ⟨[], []⟩ (.source "twins.cpp" "cpp" Pass.twinSource) =
      .ok [⟨"twins.cpp", ⟨Workshop.classes, []⟩⟩] :=
    congrArg (fun x => Except.ok [Source.mk "twins.cpp" x]) Workshop.extraction_wholes
  obtain ⟨P, h, run, extracted, serves, dimension, records⟩ := exists_run_of_sources (P := opened)
    (f := origin) (n := 0) rfl (fun _ _ => rfl) (fun _ => rfl) (by decide) ⟨rfl, rfl⟩ sole_bare planned
    (Workshop.chunks_wholes.symm ▸ Workshop.apart_classes)
  rw [Workshop.chunks_wholes] at extracted records
  exact ⟨P, h, run_opened.trans run, extracted, serves, dimension, records⟩

/-- What a handle holds after it, and nothing else, is the two classes, and what is found there are
these. -/
theorem lossless_flat : ∃ P, Run flat.embedder idle P ∧
    (P.writers.stores 0).records =
      Table.empty.insertAll (Workshop.classes.map (entry origin)) ∧
    Indexing.Faithful origin Workshop.classes (P.writers.stores 0).records ∧
    ∃ ns, (P.writers.stores 0).query (origin question.query) question.limit question.kind =
        .ok ns ∧
      retrieve flat.embedder storeBackend question () (P.writers.stores 0) =
        (.ok ((ns.filter fun a => a.distance.lt question.threshold).map Neighbor.toChunk), ()) := by
  obtain ⟨P, h, run, extracted, serves, dimension, records⟩ := run_flat
  have lines : ∀ c ∈ Workshop.classes, c.startLine < wordSize ∧ c.endLine < wordSize := by
    decide +kernel
  have pointwise : flat.embedder.Pointwise origin := fun _ _ => rfl
  obtain ⟨-, each⟩ := lossless_of_run pointwise.steady
    (fun _ => List.forall_mem_singleton.mpr Writers.readsBack_zero) (fun _ => by decide)
    (fun p same => Option.some.inj same ▸ Writers.vacant_bare.barren) run (extracted ▸ lines)
  obtain ⟨faithful, found⟩ := each 0
  have asks : Text.isBlankText question.query = false := by decide +kernel
  have number : question.threshold.isNaN = false := by decide +kernel
  obtain ⟨chunks, e, retrieved⟩ :=
    exists_retrieve (q := question) pointwise dimension.symm serves asks number ()
  obtain ⟨-, answers, whole⟩ := found question () e chunks retrieved
  obtain ⟨ns, asked⟩ := answers (by decide)
  obtain ⟨rfl, -⟩ := whole ns asked
  refine ⟨P, run, ?_, extracted ▸ faithful, ns, asked, retrieved⟩
  rw [Store.records, serves.1]
  exact records

end Plant

end CodeSearch
