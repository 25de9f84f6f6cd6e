import CodeSearch.Proofs.Embedding.Finite
import CodeSearch.Proofs.Retrieval.Lossless
import CodeSearch.Proofs.Retrieval.Monotone

/-! # Retrieval of a text that is stored

No square distance comes before zero, and the vector of a stored text is at distance zero from
itself. So whoever asks with the whole text of a record finds what is at distance zero first, and
the record among it.
-/

namespace CodeSearch

namespace Neighbor

variable {n a : Neighbor} {ns : List Neighbor}

/-- What comes before one of the nearest is as near. -/
theorem exists_before (sorted : ns.Pairwise fun a b => a.distance.rank ≤ b.distance.rank)
    (nearest : ∀ n ∈ ns, a.distance.rank ≤ n.distance.rank) (listed : a ∈ ns) :
    ∃ before after, ns = before ++ a :: after ∧ ∀ n ∈ before, n.distance = a.distance := by
  obtain ⟨before, after, rfl⟩ := List.append_of_mem listed
  refine ⟨before, after, rfl, fun n earlier => Binary.rank_injective ?_⟩
  have order := (List.pairwise_append.mp sorted).2.2 n earlier a List.mem_cons_self
  exact Int.le_antisymm order (nearest n (List.mem_append_left _ earlier))

section Under

variable {before after : List Neighbor} {x t : Single} {k : Nat}

/-- What is under a threshold starts with the nearest. -/
theorem first_under (split_ : ns = before ++ a :: after) (own : a.distance = x)
    (nearest : ∀ n ∈ before, n.distance = x) (under : x.lt t = true) (some_ : 1 ≤ k) :
    ∃ n rest, (ns.take k).filter (·.distance.lt t) = n :: rest ∧ n.distance = x := by
  obtain ⟨n, rest, rfl, first⟩ : ∃ n rest, ns = n :: rest ∧ n.distance = x := by
    subst split_
    cases before with
    | nil => exact ⟨a, after, rfl, own⟩
    | cons n before => exact ⟨n, before ++ a :: after, rfl, nearest n List.mem_cons_self⟩
  obtain ⟨k, rfl⟩ := Nat.exists_eq_succ_of_ne_zero (Nat.one_le_iff_ne_zero.mp some_)
  refine ⟨n, (rest.take k).filter (·.distance.lt t), ?_, first⟩
  rw [List.take_succ_cons, List.filter_cons_of_pos]
  rwa [first]

theorem filter_of_split (split_ : ns = before ++ a :: after) (under : a.distance.lt t = true) :
    ns.filter (·.distance.lt t) =
      before.filter (·.distance.lt t) ++ a :: after.filter (·.distance.lt t) := by
  subst split_
  rw [List.filter_append, List.filter_cons_of_pos]
  exact under

end Under

end Neighbor

namespace Holdings

variable {dimension : Nat} {h : Holdings} {v : Embedding} {kind : Option Kind} {id : String}
variable {r : Record}

/-- No square distance comes before zero. -/
theorem rank_zero_le_of_mem_neighbors {n : Neighbor} (square : h.index.metric = .l2)
    (listed : n ∈ h.neighbors v kind) : (Binary.zero false : Single).rank ≤ n.distance.rank := by
  obtain ⟨hit, among, there⟩ := List.mem_filterMap.mp listed
  obtain ⟨r, -, rfl⟩ := Option.map_eq_some_iff.mp there
  obtain ⟨scored, -⟩ := List.mem_filter.mp (List.mem_mergeSort.mp among)
  obtain ⟨e, -, rfl⟩ := List.mem_map.mp scored
  rw [square]
  exact Metric.rank_zero_le_l2 v e.2

/-- Every record that is asked for is found, if its distance is a number. -/
theorem mem_neighbors (agrees : h.Agrees dimension) (stored : h.records.get? id = some r)
    (asked : kind = none ∨ kind = some r.metadata.kind)
    (number : (h.index.metric.distance v r.vector).isNaN = false) :
    ⟨id, h.index.metric.distance v r.vector, r.document, r.metadata⟩ ∈ h.neighbors v kind := by
  have indexed : (id, r.vector) ∈ h.index.vectors.entries := by
    rw [Table.mem_entries_iff, agrees.vectors, stored]
    rfl
  have passes : Store.isOfKind h.records kind id = true := by
    rcases asked with rfl | rfl
    · rfl
    · simp [Store.isOfKind, stored]
  have scored : (id, h.index.metric.distance v r.vector) ∈ h.hits v kind := by
    refine List.mem_mergeSort.mpr (List.mem_filter.mpr ⟨?_, by simp [number]⟩)
    exact List.mem_map.mpr ⟨_, List.mem_filter.mpr ⟨indexed, passes⟩, rfl⟩
  refine List.mem_filterMap.mpr ⟨_, scored, ?_⟩
  rw [neighbor?, stored]
  rfl

/-- With the vector of a record, the record is found behind nothing but what is at distance zero. -/
theorem neighbors_self (agrees : h.Agrees dimension) (square : h.index.metric = .l2)
    (finite : ∀ x ∈ r.vector, x.isFinite = true) (stored : h.records.get? id = some r)
    (asked : kind = none ∨ kind = some r.metadata.kind) :
    ∃ before after, h.neighbors r.vector kind =
        before ++ ⟨id, Binary.zero false, r.document, r.metadata⟩ :: after ∧
      ∀ n ∈ before, n.distance = Binary.zero false := by
  have own : h.index.metric.distance r.vector r.vector = Binary.zero false := by
    rw [square, Metric.l2_self finite]
  have number : (h.index.metric.distance r.vector r.vector).isNaN = false := by
    rw [own]
    exact Binary.isNaN_zero false
  have found := mem_neighbors agrees stored asked number
  rw [own] at found
  refine Neighbor.exists_before (h.pairwise_neighbors r.vector kind) ?_ found
  exact fun n listed => rank_zero_le_of_mem_neighbors square listed

end Holdings

section Retrieve

variable {ε : Type} {m : Embedder ε} {f : String → Embedding} {cs : List Chunk} {s : Store}
variable {h : Holdings} {id : String} {r : Record} {t : Single} {k : Nat} {kind : Option Kind}

/-- In a store whose records show chunks, and that takes square distances of finite vectors, whoever
asks with the text of a record finds it. -/
theorem retrieve_verbatim {e : ε} (pointwise : m.Pointwise f)
    (shown : s.records.All (Indexing.Shows f cs)) (held : s.holdings = some h)
    (agrees : h.Agrees s.dimension) (square : h.index.metric = .l2)
    (finite : ∀ x ∈ f r.document, x.isFinite = true) (stored : h.records.get? id = some r)
    (asks : Text.isBlankText r.document = false) (some_ : 1 ≤ k)
    (above : (Binary.zero false).lt t = true) (asked : kind = none ∨ kind = some r.metadata.kind) :
    ∃ c cs, (retrieve m storeBackend ⟨r.document, k, t, kind⟩ e s).1 = .ok (c :: cs) ∧
      c.distance = some (Binary.zero false) ∧
      (h.records.size ≤ k → ∃ before after,
        c :: cs = before ++ r.toChunk.located (Binary.zero false) :: after ∧
          ∀ b ∈ before, b.distance = some (Binary.zero false)) := by
  have vector : r.vector = f r.document := by
    have faithful := Indexing.faithful_of_shows shown
    rw [Store.records, held] at faithful
    exact faithful.vector_eq id r stored
  have fits : r.vector.length = s.dimension := agrees.lengths id r stored
  have embedded : (m.embedOne r.document e).1 = .ok r.vector := by
    obtain ⟨e', given⟩ := pointwise.exists_embedOne r.document e
    rw [given, vector]
  have number : t.isNaN = false := by
    simp only [Binary.lt, Bool.and_eq_true, Bool.not_eq_true'] at above
    exact above.1.2
  have found := retrieve_eq_rank held agrees asks fits embedded number k kind
  have answered := Store.query_eq_take held agrees fits k kind
  have ranked : rankNeighbors t _ = _ := (rankNeighbors_of_shows shown answered).1
  rw [ranked] at found
  obtain ⟨before, after, all, nearest⟩ :=
    Holdings.neighbors_self agrees square (vector ▸ finite) stored asked
  obtain ⟨n, rest, whole, none_⟩ := Neighbor.first_under all rfl nearest above some_
  refine ⟨n.toChunk, rest.map Neighbor.toChunk, ?_, congrArg some none_, fun enough => ?_⟩
  · rw [found, whole, List.map_cons]
  · have room := (Holdings.length_neighbors_le agrees r.vector kind).trans enough
    refine ⟨(before.filter (·.distance.lt t)).map Neighbor.toChunk,
      (after.filter (·.distance.lt t)).map Neighbor.toChunk, ?_, ?_⟩
    · rw [← List.map_cons, ← whole, List.take_of_length_le room,
        Neighbor.filter_of_split all above, List.map_append, List.map_cons]
      rfl
    · rintro b listed
      obtain ⟨n, kept, rfl⟩ := List.mem_map.mp listed
      exact congrArg some (nearest n (List.mem_filter.mp kept).1)

end Retrieve

namespace Plant

open Indexing

variable {dimension : Nat → Nat} {metric : Nat → Metric} {files : FileSystem} {P : Plant Unit}
variable {d n k : Nat} {id : String} {r : Record} {t : Single} {kind : Option Kind}

/-- Handles in memory are filled with the vectors of hashes. Whatever becomes of the jobs, and
whatever the handles are asked for, a handle that takes square distances finds every record by its
document. The first chunk is at distance zero, under any threshold above zero and for any limit but
zero. If the limit is not less than the number of records, the chunk of the record is among those at
distance zero that come first. -/
theorem verbatim_of_run (run : Run (stubEmbedder d) (start () none dimension metric files) P)
    (square : metric n = .l2) (stored : (P.writers.stores n).records.get? id = some r)
    (asks : Text.isBlankText r.document = false) (some_ : 1 ≤ k)
    (above : (Binary.zero false).lt t = true) (asked : kind = none ∨ kind = some r.metadata.kind) :
    ∃ c cs, (retrieve (stubEmbedder d) storeBackend ⟨r.document, k, t, kind⟩ ()
        (P.writers.stores n)).1 = .ok (c :: cs) ∧
      c.distance = some (Binary.zero false) ∧
      ∃ count, (P.writers.stores n).count = .ok count ∧
        (count ≤ k → ∃ before after,
          c :: cs = before ++ r.toChunk.located (Binary.zero false) :: after ∧
            ∀ b ∈ before, b.distance = some (Binary.zero false)) := by
  have pointwise : (stubEmbedder d).Pointwise (Stub.embed d) := fun _ _ => rfl
  have barren : ∀ p, (none : Option Path) = some p → Store.Barren p files := nofun
  obtain ⟨-, -, coherent, shown⟩ :=
    ((genuine_start barren).run_of_writable pointwise.steady run nofun).stores n
  have measures := stores_of_run (fun n q s fs before => Store.Measures.perform before rfl) run
    (fun n => Store.measures_closed none (dimension n) (metric n)) n
  obtain ⟨h, held⟩ : ∃ h, (P.writers.stores n).holdings = some h := by
    cases held : (P.writers.stores n).holdings with
    | none =>
      rw [Store.records, held] at stored
      cases stored
    | some h => exact ⟨h, rfl⟩
  have counted : (P.writers.stores n).count = .ok h.records.size := by
    rw [Store.count, Store.ready_ok.mpr held]
    rfl
  obtain ⟨c, cs, found, first, whole⟩ := retrieve_verbatim (e := ()) pointwise shown held
    (coherent h held) ((measures.index h held).trans square)
    (fun x listed => Stub.isFinite_of_mem_embed listed) (Store.records_of_held held ▸ stored) asks
    some_ above asked
  exact ⟨c, cs, found, first, _, counted, whole⟩

/-- Handles in memory. -/
def unfilled : Plant Unit := start () none (fun _ => 2) (fun _ => .l2) ⟨[], []⟩

/-- The first of them is ready. -/
def waiting : Plant Unit :=
  { unfilled with
    writers := ⟨Function.update unfilled.writers.stores 0 Workshop.twinWorld.backend, ⟨[], []⟩⟩ }

theorem run_waiting : Run (stubEmbedder 2) unfilled waiting := by
  have ready : Store.perform .init (unfilled.writers.stores 0) unfilled.writers.files =
      (.ok (), Workshop.twinWorld.backend, ⟨[], []⟩) := rfl
  have first := Step.request (m := stubEmbedder 2) (P := unfilled) 0 (q := .init) nofun
  rw [Writers.step_eq ready] at first
  exact .single first

/-- The two classes are indexed to the first handle, and each is found by its text. -/
theorem verbatim_wholes : ∃ P, Run (stubEmbedder 2) unfilled P ∧
    (P.writers.stores 0).count = .ok 2 ∧
    ∀ c ∈ Workshop.classes, ∃ found others,
      (retrieve (stubEmbedder 2) storeBackend
        ⟨c.content, 5, Binary.ofRatio false 1 2, some c.kind⟩ () (P.writers.stores 0)).1 =
          .ok (found :: others) ∧
      found.distance = some (Binary.zero false) ∧
      ∃ before after, found :: others = before ++ c.located (Binary.zero false) :: after ∧
        ∀ b ∈ before, b.distance = some (Binary.zero false) := by
  have planned : Workshop.wholes.sources ⟨[], []⟩ (.source "twins.cpp" "cpp" Pass.twinSource) =
      .ok [⟨"twins.cpp", ⟨Workshop.classes, []⟩⟩] := by
    rw [Workshop.sources, Workshop.extraction_wholes]
  obtain ⟨P, h, run, -, serves, -, records⟩ := exists_run_of_sources (P := waiting)
    (f := Stub.embed 2) (n := 0) rfl (fun _ _ => rfl) (Stub.length_embed 2) (by decide) ⟨rfl, rfl⟩
    (Store.sole_of_memory rfl) planned (Workshop.chunks_wholes.symm ▸ Workshop.apart_classes)
  rw [Workshop.chunks_wholes] at records
  have all := run_waiting.trans run
  have counted : (P.writers.stores 0).count = .ok 2 := by
    rw [Store.count, Store.ready_ok.mpr serves.1, Except.map, records]
    decide +kernel
  refine ⟨P, all, counted, fun c listed => ?_⟩
  have stored : (P.writers.stores 0).records.get? c.id =
      some (Record.ofChunk (Stub.embed 2 c.content) c) := by
    rw [Store.records_of_held serves.1, records]
    exact Workshop.apart_classes.get?_insertAll (Stub.embed 2) _ listed
  have asks : ∀ c ∈ Workshop.classes, Text.isBlankText c.content = false := by decide +kernel
  obtain ⟨found, others, answer, first, count, counted', whole⟩ :=
    verbatim_of_run (k := 5) (t := Binary.ofRatio false 1 2) all rfl stored (asks c listed)
      (by decide) (by decide +kernel) (.inr rfl)
  obtain rfl := Except.ok.inj (counted.symm.trans counted')
  exact ⟨found, others, answer, first, whole (by decide)⟩

end Plant

end CodeSearch
