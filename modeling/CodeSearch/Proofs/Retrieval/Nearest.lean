import CodeSearch.Proofs.Retrieval.Monotone
import CodeSearch.Proofs.Text.Utf8

/-! # The nearest records

A query answers with the records of a kind that are nearest to a vector. No two neighbours have one
place, so the answer is the same in whatever order an index goes through its vectors, and whoever
asks for more finds more behind it.
-/

namespace CodeSearch

namespace Neighbor

/-- Nearer, or as near and under an id whose bytes come first. -/
def Precedes (a b : Neighbor) : Prop :=
  a.distance.rank < b.distance.rank ∨
    a.distance = b.distance ∧ Utf8.encode a.id < Utf8.encode b.id

/-- What a search for the `k` nearest of some neighbours should find. -/
structure Nearest (k : Nat) (among found : List Neighbor) : Prop where
  ascending : found.Pairwise Precedes
  ids : (found.map (·.id)).Nodup
  genuine : ∀ n ∈ found, n ∈ among
  length : found.length = min k among.length
  /-- What is left out comes after all that is found. -/
  nearest : ∀ n ∈ among, n ∉ found → ∀ m ∈ found, m.Precedes n

/-- The first of all neighbours in order are the nearest. -/
theorem nearest_take {among ns : List Neighbor} (order : ns.Pairwise Precedes)
    (ids : (ns.map (·.id)).Nodup) (all : ns.Perm among) (k : Nat) :
    Nearest k among (ns.take k) := by
  have front : (ns.take k).Sublist ns := List.take_sublist k ns
  constructor
  · exact order.sublist front
  · exact (front.map _).nodup ids
  · intro n listed
    exact all.subset (front.subset listed)
  · rw [List.length_take, all.length_eq]
  · intro n listed left_out m found
    rw [← List.take_append_drop k ns] at all order
    have later : n ∈ ns.drop k := by
      rcases List.mem_append.mp (all.symm.subset listed) with before | after
      · exact absurd before left_out
      · exact after
    exact (List.pairwise_append.mp order).2.2 m found n later

end Neighbor

theorem Hit.lt_of_le {a b : Hit} (le : Hit.le a b = true) (other : a.1 ≠ b.1) :
    a.2.rank < b.2.rank ∨ a.2 = b.2 ∧ a.1 < b.1 := by
  simp only [Hit.le, Bool.or_eq_true, Bool.and_eq_true, decide_eq_true_eq] at le
  rcases le with nearer | ⟨tied, first⟩
  · exact .inl nearer
  · exact .inr ⟨Binary.rank_injective tied, Std.lt_of_le_of_ne first other⟩

namespace Index

variable {x : Index} {listing : List (String × Embedding)}

/-- A search that goes through the vectors in the order of a listing. -/
def searchOver (x : Index) (listing : List (String × Embedding)) (query : Embedding) (k : Nat)
    (passes : String → Bool) : Except StoreError (List Hit) :=
  (x.check query).map fun _ =>
    ((((listing.filter fun e => passes e.1).map fun e =>
      (e.1, x.metric.distance query e.2)).filter fun hit => !hit.2.isNaN).mergeSort Hit.le).take k

theorem searchOver_entries (x : Index) : x.searchOver x.vectors.entries = x.search := rfl

/-- No order of the vectors makes a difference. -/
theorem searchOver_eq (perm : listing.Perm x.vectors.entries) :
    x.searchOver listing = x.search := by
  funext query k passes
  rw [← searchOver_entries, searchOver, searchOver]
  have scored := ((perm.filter fun e => passes e.1).map fun e =>
    (e.1, x.metric.distance query e.2)).filter fun hit => !hit.2.isNaN
  congr 2
  funext _
  congr 1
  refine List.Perm.eq_of_pairwise (fun a b _ _ => Hit.le_antisymm)
    (List.pairwise_mergeSort Hit.le_trans Hit.le_total _)
    (List.pairwise_mergeSort Hit.le_trans Hit.le_total _) ?_
  exact (List.mergeSort_perm ..).trans (scored.trans (List.mergeSort_perm ..).symm)

end Index

namespace Store

variable {s : Store} {h : Holdings} {v : Embedding} {kind : Option Kind}

/-- The neighbours that a query may answer with: one for each record of the kind that is asked for,
at its distance, if that is a number. -/
def answers (s : Store) (v : Embedding) (kind : Option Kind) : List Neighbor :=
  s.records.entries.filterMap fun (id, r) =>
    let x := s.metric.distance v r.vector
    if kind.all (r.metadata.kind = ·) && !x.isNaN then some ⟨id, x, r.document, r.metadata⟩
    else none

/-- A query whose search goes through the vectors of the index in the order of a listing. -/
def queryOver (s : Store) (listing : List (String × Embedding)) (v : Embedding) (k : Nat)
    (kind : Option Kind) : Except StoreError (List Neighbor) := do
  let h ← s.ready
  let hits ← h.index.searchOver listing v k (isOfKind h.records kind)
  return hits.filterMap fun (id, x) =>
    (h.records.get? id).map fun r => ⟨id, x, r.document, r.metadata⟩

theorem queryOver_eq {listing : List (String × Embedding)} (held : s.holdings = some h)
    (perm : listing.Perm h.index.vectors.entries) : s.queryOver listing = s.query := by
  funext v k kind
  rw [queryOver, query, ready_ok.mpr held]
  change (do let hits ← h.index.searchOver listing v k _; _) = _
  rw [Index.searchOver_eq perm]
  rfl

end Store

namespace Holdings

variable {h : Holdings} {v : Embedding} {kind : Option Kind}

theorem neighbor?_eq_some {hit : Hit} {n : Neighbor} (there : h.neighbor? hit = some n) :
    n.id = hit.1 ∧ n.distance = hit.2 := by
  obtain ⟨r, -, rfl⟩ := Option.map_eq_some_iff.mp there
  exact ⟨rfl, rfl⟩

/-- The neighbours come in order, each under an id of its own. -/
theorem pairwise_precedes (h : Holdings) (v : Embedding) (kind : Option Kind) :
    (h.neighbors v kind).Pairwise fun a b => a.id ≠ b.id ∧ a.Precedes b := by
  apply List.pairwise_filterMap.mpr
  apply (h.index.pairwise_scores v (Store.isOfKind h.records kind)).imp
  rintro a b ⟨other, le⟩ m here n there
  obtain ⟨id, distance⟩ := neighbor?_eq_some here
  obtain ⟨id', distance'⟩ := neighbor?_eq_some there
  rw [Neighbor.Precedes, Utf8.encode_lt_iff, id, id', distance, distance']
  exact ⟨other, Hit.lt_of_le le other⟩

end Holdings

namespace Store

variable {s : Store} {h : Holdings} {v : Embedding} {kind : Option Kind} {metric : Metric}

/-- What a store finds, nearest first, is all that it may answer with. -/
theorem perm_neighbors (held : s.holdings = some h) (agrees : h.Agrees s.dimension)
    (measure : h.index.metric = s.metric) : (h.neighbors v kind).Perm (s.answers v kind) := by
  have unsorted : (h.index.scores v (isOfKind h.records kind)).filterMap h.neighbor? =
      s.answers v kind := by
    rw [Index.scores, Table.entries_of_get?_map agrees.vectors, measure, answers,
      records_of_held held]
    simp only [List.filter_map, List.map_map, List.filterMap_map, List.filterMap_filter]
    refine List.filterMap_congr ?_
    rintro ⟨id, r⟩ listed
    have stored : h.records.get? id = some r := Table.mem_entries_iff.mp listed
    have passes : isOfKind h.records kind id = kind.all (r.metadata.kind = ·) := by
      cases kind <;> simp [isOfKind, stored]
    simp only [Function.comp_apply, Holdings.neighbor?, passes, stored, Option.map_some]
    cases kind.all (r.metadata.kind = ·) <;> rfl
  rw [← unsorted]
  exact (List.mergeSort_perm ..).filterMap _

theorem query_of_length (held : s.holdings = some h) (agrees : h.Agrees s.dimension)
    (other : v.length ≠ s.dimension) (k : Nat) (kind : Option Kind) :
    s.query v k kind = .error (.dimension s.dimension v.length) := by
  have refused : h.index.check v = .error (.dimension s.dimension v.length) := by
    rw [Index.check, agrees.fits, if_neg other]
  simp [query, ready_ok.mpr held, Index.search, refused, Except.map, bind, Except.bind]

theorem Measures.serve (measures : s.Measures metric) (calls : List (Call × FileSystem)) :
    (s.serve calls).Measures metric := by
  induction calls generalizing s with
  | nil => exact measures
  | cons call calls ih =>
    obtain ⟨c, fs⟩ := call
    refine ih ?_
    cases c with
    | query v k kind => exact measures
    | request q =>
      rcases run : Store.perform q s fs with ⟨r, t, after⟩
      rw [answer_request run]
      exact measures.perform run

/-- In every run, however its calls end and whatever the files hold, a store that is ready refuses a
vector of another length and answers with the nearest records otherwise. It finds them in whatever
order its index goes through the vectors, and a greater number finds more behind them. -/
theorem nearest_of_serve {path : Option Path} {dimension : Nat} {metric : Metric}
    {calls : List (Call × FileSystem)} (reached : (closed path dimension metric).serve calls = s)
    (held : s.holdings = some h) (v : Embedding) (k : Nat) (kind : Option Kind) :
    s.metric = metric ∧
    (s.query v k kind = .error (.dimension dimension v.length) ↔ v.length ≠ dimension) ∧
    (v.length = dimension → ∃ ns, s.query v k kind = .ok ns ∧
      Neighbor.Nearest k (s.answers v kind) ns ∧
      (∀ listing, listing.Perm h.index.vectors.entries →
        s.queryOver listing v k kind = .ok ns) ∧
      ∀ l, k ≤ l → ∃ ms, s.query v l kind = .ok ms ∧ ns <+: ms) := by
  obtain ⟨coherent, -, length, -⟩ := (coherent_closed path dimension metric).serve calls
  have measures := (measures_closed path dimension metric).serve calls
  rw [reached] at coherent length measures
  obtain rfl : s.dimension = dimension := length
  have agrees := coherent h held
  have measure : h.index.metric = s.metric := (measures.index h held).trans measures.own.symm
  have order := h.pairwise_precedes v kind
  have found := query_eq_take (v := v) held agrees
  refine ⟨measures.own, ⟨?_, fun other => ?_⟩, fun fits => ⟨_, found fits k kind, ?_, ?_, ?_⟩⟩
  · intro refused fits
    rw [found fits k kind] at refused
    cases refused
  · rw [query_of_length held agrees other]
  · refine Neighbor.nearest_take (order.imp And.right) ?_ (perm_neighbors held agrees measure) k
    exact List.pairwise_map.mpr (order.imp And.left)
  · intro listing perm
    rw [queryOver_eq held perm, found fits k kind]
  · intro l le
    exact ⟨_, found fits l kind, List.take_prefix_take_left le⟩

/-- A blank record with a vector of one number. -/
def blankAt (x : Single) : Record := { Writers.blank 1 with vector := [x] }

/-- Two records at one distance, a nearer one and one at no distance that is a number. Two of the
three that count are found, and a vector of two numbers is refused. -/
theorem nearest_blanks : ∃ s : Store, (closed none 1 .l2).serve
      [(.request .init, ⟨[], []⟩),
        (.request (.add (.ofEntries [("b", blankAt (.ofNat 1)), ("a", blankAt (.ofNat 1)),
          ("c", blankAt (.zero true)), ("n", blankAt .nan)])), ⟨[], []⟩)] = s ∧
    (s.answers [.zero false] none).map (fun n => (n.id, n.distance)) =
      [("a", .ofNat 1), ("b", .ofNat 1), ("c", .zero false)] ∧
    (∃ ns, s.query [.zero false] 2 none = .ok ns ∧ ns.length = 2 ∧
      Neighbor.Nearest 2 (s.answers [.zero false] none) ns ∧
      ∃ ms, s.query [.zero false] 3 none = .ok ms ∧ ns <+: ms) ∧
    s.query [.zero false, .zero false] 0 none = .error (.dimension 1 2) := by
  refine ⟨_, rfl, ?_⟩
  generalize reached : (closed none 1 .l2).serve _ = s
  have listed : (s.answers [.zero false] none).map (fun n => (n.id, n.distance)) =
      [("a", .ofNat 1), ("b", .ofNat 1), ("c", .zero false)] := by
    rw [← reached]
    decide +kernel
  obtain ⟨h, held⟩ : ∃ h, s.holdings = some h := by
    rw [← reached]
    exact ⟨_, rfl⟩
  obtain ⟨-, -, answer⟩ := nearest_of_serve reached held [.zero false] 2 none
  obtain ⟨-, refused, -⟩ := nearest_of_serve reached held [.zero false, .zero false] 0 none
  obtain ⟨ns, found, nearest, -, more⟩ := answer rfl
  have three : (s.answers [.zero false] none).length = 3 := by
    rw [← List.length_map, listed]
    rfl
  have two : ns.length = 2 := by
    rw [nearest.length, three]
    rfl
  exact ⟨listed, ⟨ns, found, two, nearest, more 3 (by decide)⟩, refused.mpr (by decide)⟩

end Store

end CodeSearch
