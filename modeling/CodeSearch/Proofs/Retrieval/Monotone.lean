import CodeSearch.Proofs.Retrieval.Lossless

/-! # Asking for more

A greater limit or a greater threshold only adds to the end of what is found, and a kind picks from
what is found without one. So a search, a threshold and the removal of repeats agree on one order.
-/

namespace CodeSearch

theorem Hit.le_antisymm {a b : Hit} (le : Hit.le a b = true) (ge : Hit.le b a = true) : a = b := by
  simp only [Hit.le, Bool.or_eq_true, Bool.and_eq_true, decide_eq_true_eq] at le ge
  have rank : a.2.rank = b.2.rank := by omega
  refine Prod.ext (Std.le_antisymm ?_ ?_) (Binary.rank_injective rank)
  · rcases le with before | ⟨-, le⟩
    · omega
    · exact le
  · rcases ge with before | ⟨-, ge⟩
    · omega
    · exact ge

/-- Hits are sorted in the only way there is, so those that are left out do not matter. -/
theorem Hit.mergeSort_filter (p : Hit → Bool) (hits : List Hit) :
    (hits.filter p).mergeSort Hit.le = (hits.mergeSort Hit.le).filter p := by
  refine List.Perm.eq_of_pairwise (fun a b _ _ => Hit.le_antisymm)
    (List.pairwise_mergeSort Hit.le_trans Hit.le_total _)
    ((List.pairwise_mergeSort Hit.le_trans Hit.le_total hits).filter p) ?_
  exact (List.mergeSort_perm ..).trans ((List.mergeSort_perm hits Hit.le).symm.filter p)

namespace Ranking

/-- Less of a list is taken from its front, up to the first that fails a test that is closed towards
the front. -/
theorem filter_take_prefix {α : Type} {p q : α → Bool} {as : List α} {k l : Nat}
    (closed : as.Pairwise fun a b => p b = true → p a = true)
    (weaker : ∀ a, p a = true → q a = true) (le : k ≤ l) :
    (as.take k).filter p <+: (as.take l).filter q := by
  induction as generalizing k l with
  | nil => simp
  | cons a as ih =>
    obtain ⟨first, rest⟩ := List.pairwise_cons.mp closed
    cases k with
    | zero => exact List.nil_prefix
    | succ k =>
      obtain ⟨l, rfl⟩ : ∃ l', l = l' + 1 := ⟨l - 1, by omega⟩
      rw [List.take_succ_cons, List.take_succ_cons]
      cases held : p a with
      | true =>
        rw [List.filter_cons_of_pos held, List.filter_cons_of_pos (weaker a held)]
        exact (List.prefix_cons_inj a).mpr (ih rest (Nat.le_of_succ_le_succ le))
      | false =>
        have none_ : ((a :: as.take k).filter p) = [] := by
          refine List.filter_eq_nil_iff.mpr fun b listed passes => ?_
          rcases List.mem_cons.mp listed with rfl | later
          · rw [held] at passes
            cases passes
          · rw [first b (List.mem_of_mem_take later) passes] at held
            cases held
        rw [none_]
        exact List.nil_prefix

theorem firsts_prefix {seen : List Key} {cs ds : List Chunk} (begins : cs <+: ds) :
    firsts seen cs <+: firsts seen ds := by
  induction cs generalizing seen ds with
  | nil => exact List.nil_prefix
  | cons c cs ih =>
    obtain ⟨es, rfl⟩ := begins
    rw [List.cons_append, firsts, firsts]
    split
    · exact ih (List.prefix_append ..)
    · exact (List.prefix_cons_inj c).mpr (ih (List.prefix_append ..))

/-- Whether a chunk is left over does not depend on chunks that its key tells it from. -/
theorem firsts_filter (p : Key → Bool) (seen : List Key) (cs : List Chunk) :
    (firsts seen cs).filter (fun c => p c.key) =
      firsts (seen.filter p) (cs.filter fun c => p c.key) := by
  induction cs generalizing seen with
  | nil => rfl
  | cons c cs ih =>
    cases held : p c.key with
    | true =>
      have picked (ds : List Chunk) : (c :: ds).filter (fun c => p c.key) =
          c :: ds.filter fun c => p c.key := List.filter_cons_of_pos held
      rw [picked, firsts, firsts]
      by_cases before : c.key ∈ seen
      · rw [if_pos before, if_pos (List.mem_filter.mpr ⟨before, held⟩), ih]
      · rw [if_neg before, if_neg fun among => before (List.mem_filter.mp among).1, picked, ih,
          List.filter_cons_of_pos held]
    | false =>
      have fails : ¬ p c.key = true := by simp [held]
      have dropped (ds : List Chunk) : (c :: ds).filter (fun c => p c.key) =
          ds.filter fun c => p c.key := List.filter_cons_of_neg fails
      rw [dropped, firsts]
      split
      · exact ih seen
      · rw [dropped, ih, List.filter_cons_of_neg fails]

end Ranking

namespace Holdings

variable {dimension : Nat} {h : Holdings} {v : Embedding} {kind : Option Kind}

/-- What a hit tells, if it has a record. -/
def neighbor? (h : Holdings) (hit : Hit) : Option Neighbor :=
  (h.records.get? hit.1).map fun r => ⟨hit.1, hit.2, r.document, r.metadata⟩

/-- The hits among the ids of a kind, the nearest first. -/
def hits (h : Holdings) (v : Embedding) (kind : Option Kind) : List Hit :=
  (h.index.scores v (Store.isOfKind h.records kind)).mergeSort Hit.le

/-- What may be found with a vector, the nearest first. -/
def neighbors (h : Holdings) (v : Embedding) (kind : Option Kind) : List Neighbor :=
  (h.hits v kind).filterMap h.neighbor?

/-- An id that is scored is in the index, and its distance is a number. -/
theorem of_mem_hits {hit : Hit} (listed : hit ∈ h.hits v kind) :
    hit.1 ∈ h.index.vectors.keys ∧ hit.2.isNaN = false := by
  obtain ⟨scored, number⟩ := List.mem_filter.mp (List.mem_mergeSort.mp listed)
  obtain ⟨e, among, rfl⟩ := List.mem_map.mp scored
  exact ⟨List.mem_map_of_mem (List.mem_filter.mp among).1, by simpa using number⟩

theorem of_mem_neighbors {n : Neighbor} (listed : n ∈ h.neighbors v kind) :
    n.distance.isNaN = false := by
  obtain ⟨hit, among, there⟩ := List.mem_filterMap.mp listed
  obtain ⟨r, -, rfl⟩ := Option.map_eq_some_iff.mp there
  exact (of_mem_hits among).2

theorem pairwise_neighbors (h : Holdings) (v : Embedding) (kind : Option Kind) :
    (h.neighbors v kind).Pairwise fun a b => a.distance.rank ≤ b.distance.rank := by
  refine List.pairwise_filterMap.mpr ?_
  refine (List.pairwise_mergeSort Hit.le_trans Hit.le_total _).imp fun le a here b there => ?_
  obtain ⟨r, -, rfl⟩ := Option.map_eq_some_iff.mp here
  obtain ⟨r', -, rfl⟩ := Option.map_eq_some_iff.mp there
  exact Hit.rank_le le

theorem length_neighbors_le (agrees : h.Agrees dimension) (v : Embedding) (kind : Option Kind) :
    (h.neighbors v kind).length ≤ h.records.size := by
  rw [← Table.size_of_get?_map agrees.vectors]
  calc (h.neighbors v kind).length ≤ (h.hits v kind).length := List.length_filterMap_le ..
    _ = (h.index.scores v (Store.isOfKind h.records kind)).length := List.length_mergeSort _
    _ ≤ h.index.vectors.size := by
      refine (List.length_filter_le ..).trans ?_
      rw [List.length_map]
      exact List.length_filter_le ..

/-- The hits of a kind are those of all kinds whose ids are of it. -/
theorem hits_kind (h : Holdings) (v : Embedding) (kind : Option Kind) :
    h.hits v kind = (h.hits v none).filter fun hit => Store.isOfKind h.records kind hit.1 := by
  rw [hits, hits, ← Hit.mergeSort_filter]
  congr 1
  simp only [Index.scores, List.filter_map, List.filter_filter, Store.isOfKind, Bool.and_true]
  congr 1
  exact List.filter_congr fun e _ => Bool.and_comm ..

theorem neighbors_kind (h : Holdings) (v : Embedding) (kind : Kind) :
    h.neighbors v (some kind) = (h.neighbors v none).filter fun n => n.metadata.kind = kind := by
  rw [neighbors, neighbors, hits_kind, List.filterMap_filter, List.filter_filterMap]
  refine List.filterMap_congr fun hit _ => ?_
  rw [neighbor?, Store.isOfKind]
  cases h.records.get? hit.1 with
  | none => simp
  | some r => by_cases same : r.metadata.kind = kind <;> simp [same, Option.filter]

/-- No hit is without a record, so those that are asked for are answered. -/
theorem filterMap_take (agrees : h.Agrees dimension) (k : Nat) :
    ((h.hits v kind).take k).filterMap h.neighbor? = (h.neighbors v kind).take k := by
  have there : ∀ hit ∈ h.hits v kind, ∃ n, h.neighbor? hit = some n := by
    intro hit listed
    have known := (of_mem_hits listed).1
    rw [Table.keys_of_get?_map agrees.vectors, Table.mem_keys_iff] at known
    obtain ⟨r, stored⟩ := Option.isSome_iff_exists.mp known
    exact ⟨_, congrArg (Option.map _) stored⟩
  rw [neighbors]
  generalize h.hits v kind = hits at there
  induction hits generalizing k with
  | nil => simp
  | cons hit hits ih =>
    obtain ⟨⟨n, first⟩, rest⟩ := List.forall_mem_cons.mp there
    cases k with
    | zero => simp
    | succ k => rw [List.take_succ_cons, List.filterMap_cons_some first,
        List.filterMap_cons_some first, List.take_succ_cons, ih k rest]

end Holdings

namespace Store

variable {s : Store} {h : Holdings} {v : Embedding}

theorem query_eq_take (held : s.holdings = some h) (agrees : h.Agrees s.dimension)
    (fits : v.length = s.dimension) (k : Nat) (kind : Option Kind) :
    s.query v k kind = .ok ((h.neighbors v kind).take k) := by
  have checked : h.index.check v = .ok () := by
    rw [Index.check, if_pos (fits.trans agrees.fits.symm)]
  rw [← Holdings.filterMap_take agrees]
  simp only [query, ready_ok.mpr held, Index.search, checked, Except.map, bind, Except.bind, pure,
    Except.pure]
  rfl

end Store

/-! ## Ranking what is found -/

/-- A greater limit and a threshold that is not less find more, behind what was found. -/
theorem rankNeighbors_prefix {ns : List Neighbor} {k l : Nat} {t u : Single}
    (sorted : ns.Pairwise fun a b => a.distance.rank ≤ b.distance.rank)
    (numbers : ∀ n ∈ ns, n.distance.isNaN = false) (le : k ≤ l) (number : u.isNaN = false)
    (below : u.lt t = false) :
    rankNeighbors t (ns.take k) <+: rankNeighbors u (ns.take l) := by
  rw [rankNeighbors_of_sorted (sorted.sublist (List.take_sublist ..)),
    rankNeighbors_of_sorted (sorted.sublist (List.take_sublist ..))]
  refine Ranking.firsts_prefix (List.IsPrefix.map _ (Ranking.filter_take_prefix ?_ ?_ le))
  · exact sorted.imp_of_mem fun listed _ nearer => Binary.lt_of_rank_le (numbers _ listed) nearer
  · intro n under
    simp only [Binary.lt, Bool.and_eq_true, Bool.not_eq_true', decide_eq_true_eq,
      Bool.and_eq_false_iff, Bool.not_eq_false', decide_eq_false_iff_not] at under below ⊢
    refine ⟨⟨under.1.1, number⟩, ?_⟩
    rcases below with (nan | nan) | not_below
    · rw [number] at nan
      cases nan
    · rw [under.1.2] at nan
      cases nan
    · omega

/-- Ranking the answers of a kind leaves those of that kind. -/
theorem rankNeighbors_kind {ns : List Neighbor} (threshold : Single) (kind : Kind)
    (sorted : ns.Pairwise fun a b => a.distance.rank ≤ b.distance.rank) :
    rankNeighbors threshold (ns.filter fun n => n.metadata.kind = kind) =
      (rankNeighbors threshold ns).filter fun c => c.kind = kind := by
  rw [rankNeighbors_of_sorted (sorted.filter _), rankNeighbors_of_sorted sorted]
  have picked := Ranking.firsts_filter (fun key => key.kind = kind) []
    ((ns.filter fun n => n.distance.lt threshold).map Neighbor.toChunk)
  refine Eq.trans ?_ picked.symm
  rw [List.filter_nil, List.filter_map, List.filter_filter, List.filter_filter]
  congr 2
  exact List.filter_congr fun n _ => Bool.and_comm ..

theorem length_rankNeighbors_take_le {ns : List Neighbor} (threshold : Single) (k : Nat)
    (sorted : ns.Pairwise fun a b => a.distance.rank ≤ b.distance.rank) :
    (rankNeighbors threshold (ns.take k)).length ≤ k := by
  rw [rankNeighbors_of_sorted (sorted.sublist (List.take_sublist ..))]
  calc _ ≤ _ := (Ranking.firsts_sublist _ _).length_le
    _ ≤ (ns.take k).length := by
      rw [List.length_map]
      exact List.length_filter_le ..
    _ ≤ k := List.length_take_le ..

section Retrieve

variable {ε : Type} {m : Embedder ε} {s : Store} {h : Holdings} {text : String} {v : Embedding}
variable {e : ε} {t : Single}

/-- Before a store is ready nothing is found, whatever is asked for. -/
theorem retrieve_notReady (closed : s.holdings = none) (q : Request) (e : ε) :
    ∃ x, (retrieve m storeBackend q e s).1 = .error x := by
  have notReady : storeBackend.ready s = .error .notReady := by
    simp [storeBackend, Store.ready, closed, Except.map]
  unfold retrieve
  split
  · exact ⟨_, rfl⟩
  · split
    · exact ⟨_, rfl⟩
    · simp only [notReady]
      exact ⟨_, rfl⟩

/-- What is found with a vector are its neighbours up to the limit, ranked. -/
theorem retrieve_eq_rank (held : s.holdings = some h) (agrees : h.Agrees s.dimension)
    (asks : Text.isBlankText text = false) (fits : v.length = s.dimension)
    (embedded : (m.embedOne text e).1 = .ok v) (number : t.isNaN = false) (k : Nat)
    (kind : Option Kind) :
    (retrieve m storeBackend ⟨text, k, t, kind⟩ e s).1 =
      .ok (rankNeighbors t ((h.neighbors v kind).take k)) := by
  have isReady : storeBackend.ready s = .ok () := by
    simp [storeBackend, Store.ready_ok.mpr held, Except.map]
  have answered : storeBackend.query v k kind s = .ok ((h.neighbors v kind).take k) :=
    Store.query_eq_take held agrees fits k kind
  rcases given : m.embedOne text e with ⟨r, e'⟩
  rw [given] at embedded
  obtain rfl : r = .ok v := embedded
  by_cases none_ : k = 0
  · rw [none_, List.take_zero, rankNeighbors_of_sorted .nil]
    simp [retrieve, asks, number, isReady, Ranking.firsts]
  · simp [retrieve, asks, number, isReady, none_, given, answered]

end Retrieve

namespace Store

variable {ε : Type} {s : Store}

/-- In every run, however its calls end and whatever the files hold: before a store is ready every
retrieval fails. Once it is, a text that is given one vector of its length is answered. A limit and
a threshold that are not less find what the others find and perhaps more behind it, and no more than
the limit. If the limit is not less than the number of records, asking for a kind finds what is of
that kind among what is found without one. -/
theorem monotone_of_serve {path : Option Path} {dimension : Nat} {metric : Metric}
    {calls : List (Call × FileSystem)} (m : Embedder ε)
    (reached : (closed path dimension metric).serve calls = s) :
    (s.holdings = none → ∀ q e, ∃ x, (retrieve m storeBackend q e s).1 = .error x) ∧
    ∀ n, s.count = .ok n → ∀ text v e e', Text.isBlankText text = false → v.length = dimension →
      (m.embedOne text e).1 = .ok v → (m.embedOne text e').1 = .ok v →
      (∀ kind k l t u, k ≤ l → t.isNaN = false → u.isNaN = false → u.lt t = false →
        ∃ cs ds, (retrieve m storeBackend ⟨text, k, t, kind⟩ e s).1 = .ok cs ∧
          (retrieve m storeBackend ⟨text, l, u, kind⟩ e' s).1 = .ok ds ∧
          cs <+: ds ∧ cs.length ≤ k) ∧
      ∀ k l t, n ≤ k → n ≤ l → t.isNaN = false →
        ∃ cs, (retrieve m storeBackend ⟨text, k, t, none⟩ e s).1 = .ok cs ∧
          ∀ kind, (retrieve m storeBackend ⟨text, l, t, some kind⟩ e' s).1 =
            .ok (cs.filter fun c => c.kind = kind) := by
  obtain ⟨coherent, -, length, -⟩ := (coherent_closed path dimension metric).serve calls
  rw [reached] at coherent length
  change s.dimension = dimension at length
  refine ⟨retrieve_notReady, fun n counted text v e e' asks fits embedded embedded' => ?_⟩
  obtain ⟨h, held⟩ : ∃ h, s.holdings = some h := by
    cases held : s.holdings with
    | none =>
      rw [count, ready, held] at counted
      cases counted
    | some h => exact ⟨h, rfl⟩
  obtain rfl : h.records.size = n := by
    rw [count, ready_ok.mpr held] at counted
    exact Except.ok.inj counted
  have agrees := coherent h held
  have room := fun kind => Holdings.length_neighbors_le agrees v kind
  constructor
  · intro kind k l t u le number number' below
    refine ⟨_, _, retrieve_eq_rank held agrees asks (fits.trans length.symm) embedded number k kind,
      retrieve_eq_rank held agrees asks (fits.trans length.symm) embedded' number' l kind, ?_, ?_⟩
    · exact rankNeighbors_prefix (h.pairwise_neighbors v kind)
        (fun n listed => Holdings.of_mem_neighbors listed) le number' below
    · exact length_rankNeighbors_take_le t k (h.pairwise_neighbors v kind)
  · intro k l t enough enough' number
    refine ⟨_, retrieve_eq_rank held agrees asks (fits.trans length.symm) embedded number k none,
      fun kind => ?_⟩
    rw [retrieve_eq_rank held agrees asks (fits.trans length.symm) embedded' number l (some kind),
      List.take_of_length_le ((room _).trans enough), List.take_of_length_le ((room _).trans enough'),
      Holdings.neighbors_kind, rankNeighbors_kind t kind (h.pairwise_neighbors v none)]

/-- A store in memory with two records, asked for one of them close by and for both at any distance,
for comments and for anything. -/
theorem monotone_blanks : ∃ s : Store, (closed none 1 .l2).serve
      [(.request .init, ⟨[], []⟩),
        (.request (.add (.ofEntries [("a", Writers.blank 1), ("b", Writers.blank 1)])), ⟨[], []⟩)] =
      s ∧ s.count = .ok 2 ∧
    (∃ cs ds,
      (retrieve (stubEmbedder 1) storeBackend ⟨"two", 1, Binary.ofRatio false 1 2, none⟩ () s).1 =
        .ok cs ∧
      (retrieve (stubEmbedder 1) storeBackend ⟨"two", 2, Binary.infinity false, none⟩ () s).1 =
        .ok ds ∧ cs <+: ds ∧ cs.length ≤ 1) ∧
    (∃ cs,
      (retrieve (stubEmbedder 1) storeBackend ⟨"two", 2, Binary.infinity false, none⟩ () s).1 =
        .ok cs ∧
      (retrieve (stubEmbedder 1) storeBackend ⟨"two", 5, Binary.infinity false, some .comment⟩ ()
        s).1 = .ok (cs.filter fun c => c.kind = .comment)) ∧
    ∀ q, ∃ x, (retrieve (stubEmbedder 1) storeBackend q () (closed none 1 .l2)).1 = .error x := by
  have asks : Text.isBlankText "two" = false := by decide +kernel
  refine ⟨_, rfl, ?_⟩
  generalize reached : (closed none 1 .l2).serve _ = s
  have counted : s.count = .ok 2 := by
    rw [← reached]
    decide +kernel
  obtain ⟨grows, picks⟩ := (monotone_of_serve (stubEmbedder 1) reached).2 2 counted "two"
    (Stub.embed 1 "two") () () asks (Stub.length_embed ..) rfl rfl
  refine ⟨counted, ?_, ?_, fun q => ?_⟩
  · exact grows none 1 2 _ _ (by decide) (by decide +kernel) (by decide +kernel) (by decide +kernel)
  · obtain ⟨cs, found, each⟩ := picks 2 5 (Binary.infinity false) (by decide) (by decide)
      (by decide +kernel)
    exact ⟨cs, found, each .comment⟩
  · have first : (closed none 1 .l2).serve [] = closed none 1 .l2 := rfl
    exact (monotone_of_serve (stubEmbedder 1) first).1 rfl q ()

end Store

end CodeSearch
