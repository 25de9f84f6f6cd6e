import CodeSearch.Proofs.Retrieval.Monotone

/-! # Ranked chunks

Ranking has one result only: of the chunks under a threshold each key keeps the nearest, the first
of those at one distance, and they come by distance and then by where they stood. A lower threshold
takes the front of what a higher one leaves.
-/

namespace CodeSearch

/-- In a list with places a stable sort is a sort by value and then by place. -/
theorem mergeSort_map_fst {α : Type} (le : α → α → Bool) {as : List (α × Nat)}
    (places : as.Pairwise fun a b => a.2 < b.2) :
    (as.map Prod.fst).mergeSort le = (as.mergeSort (List.zipIdxLE le)).map Prod.fst := by
  have order : ∀ x ∈ as.zipIdx, ∀ y ∈ as.zipIdx, x.2 ≤ y.2 ↔ x.1.2 ≤ y.1.2 := by
    rintro ⟨a, i⟩ listed ⟨b, j⟩ listed'
    obtain ⟨inside, own⟩ := List.mem_zipIdx' listed
    obtain ⟨inside', own'⟩ := List.mem_zipIdx' listed'
    rw [own, own']
    have ascends := List.pairwise_iff_getElem.mp places
    rcases Nat.lt_trichotomy i j with before | rfl | after
    · have := ascends i j inside inside' before
      simp only
      omega
    · simp
    · have := ascends j i inside' inside after
      simp only
      omega
  have within : as.mergeSort (fun a b => le a.1 b.1) = as.mergeSort (List.zipIdxLE le) := by
    rw [← List.mergeSort_zipIdx, List.map_mergeSort (s := List.zipIdxLE le), List.zipIdx_map_fst]
    intro x listed y listed'
    simp only [List.zipIdxLE, order x listed y listed']
  rw [← within]
  exact (List.map_mergeSort (f := Prod.fst) fun _ _ _ _ => rfl).symm

namespace Ranking

variable {t u : Single} {cs : List Chunk}

/-- A chunk and where it stands in a list. -/
abbrev Entry := Chunk × Nat

/-- Nearer, or as near and not later in the list. -/
def leads (a b : Entry) : Bool :=
  place a.1 < place b.1 || (place a.1 = place b.1 && a.2 ≤ b.2)

/-- What ranking should leave of a list, with the places in it. -/
structure Ranks (t : Single) (cs : List Chunk) (es : List Entry) : Prop where
  listed : ∀ e ∈ es, e ∈ cs.zipIdx
  under : ∀ e ∈ es, ∃ x, e.1.distance = some x ∧ x.lt t = true
  ascending : es.Pairwise fun a b => place a.1 ≤ place b.1
  stable : es.Pairwise fun a b => place a.1 = place b.1 → a.2 < b.2
  apart : es.Pairwise fun a b => a.1.key ≠ b.1.key
  /-- Every chunk under the threshold is shown by one of its key. -/
  shown : ∀ c ∈ cs, isUnder t c = true → ∃! e, e ∈ es ∧ e.1.key = c.key
  /-- The one that is shown is the earliest of the nearest. -/
  nearest : ∀ e ∈ es, ∀ a ∈ cs.zipIdx, isUnder t a.1 = true → a.1.key = e.1.key →
    place e.1 < place a.1 ∨ place e.1 = place a.1 ∧ e.2 ≤ a.2

theorem isUnder_iff {c : Chunk} :
    isUnder t c = true ↔ ∃ x, c.distance = some x ∧ x.lt t = true := by
  rw [isUnder]
  cases c.distance <;> simp

theorem leads_iff {a b : Entry} :
    leads a b = true ↔ place a.1 < place b.1 ∨ place a.1 = place b.1 ∧ a.2 ≤ b.2 := by
  simp [leads]

theorem zipIdxLE_eq : List.zipIdxLE (fun c d => decide (place c ≤ place d)) = leads := by
  funext a b
  rw [Bool.eq_iff_iff, leads_iff]
  simp only [List.zipIdxLE, decide_eq_true_eq]
  split_ifs <;> simp <;> omega

theorem leads_refl (e : Entry) : leads e e = true := leads_iff.mpr (.inr ⟨rfl, Nat.le_refl _⟩)

theorem leads_trans (a b c : Entry) : leads a b = true → leads b c = true → leads a c = true := by
  simp only [leads_iff]
  omega

theorem leads_total (a b : Entry) : (leads a b || leads b a) = true := by
  simp only [Bool.or_eq_true, leads_iff]
  omega

theorem pairwise_zipIdx (cs : List Chunk) : cs.zipIdx.Pairwise fun a b => a.2 < b.2 := by
  have places : (cs.zipIdx.map Prod.snd).Pairwise (· < ·) := by
    rw [List.zipIdx_map_snd]
    exact List.pairwise_lt_range'
  exact List.pairwise_map.mp places

theorem eq_of_leads {a b : Entry} (listed : a ∈ cs.zipIdx) (listed' : b ∈ cs.zipIdx)
    (le : leads a b = true) (ge : leads b a = true) : a = b := by
  have same : a.2 = b.2 := by
    rw [leads_iff] at le ge
    omega
  obtain ⟨c, i⟩ := a
  obtain ⟨d, j⟩ := b
  obtain rfl : i = j := same
  rw [(List.mem_zipIdx' listed).2, (List.mem_zipIdx' listed').2]

/-- The chunks of a list with their places, the nearest first. -/
def ordered (cs : List Chunk) : List Entry := cs.zipIdx.mergeSort leads

theorem mem_ordered {e : Entry} : e ∈ ordered cs ↔ e ∈ cs.zipIdx := List.mem_mergeSort

theorem pairwise_ordered (cs : List Chunk) : (ordered cs).Pairwise fun a b => leads a b = true :=
  List.pairwise_mergeSort leads_trans leads_total _

/-! ## The entries that are left -/

/-- Of entries in order, the first of each key is the one that leads its key. -/
theorem firsts_map_fst {seen : List Key} {es : List Entry}
    (order : es.Pairwise fun a b => leads a b = true ∧ leads b a = false) :
    firsts seen (es.map Prod.fst) = (es.filter fun e => e.1.key ∉ seen ∧
      ∀ a ∈ es, a.1.key = e.1.key → leads e a = true).map Prod.fst := by
  induction es generalizing seen with
  | nil => rfl
  | cons e es ih =>
    obtain ⟨first, rest⟩ := List.pairwise_cons.mp order
    have ahead : ∀ a ∈ e :: es, a.1.key = e.1.key → leads e a = true := by
      intro a listed _
      rcases List.mem_cons.mp listed with rfl | later
      · exact leads_refl a
      · exact (first a later).1
    -- Behind `e` no entry leads the key of `e`.
    have behind : ∀ x ∈ es, (∀ a ∈ e :: es, a.1.key = x.1.key → leads x a = true) ↔
        e.1.key ≠ x.1.key ∧ ∀ a ∈ es, a.1.key = x.1.key → leads x a = true := by
      intro x later
      rw [List.forall_mem_cons, (first x later).2]
      simp
    rw [List.map_cons, firsts, ih rest, ih rest]
    split
    · rename_i before
      rw [List.filter_cons_of_neg (by simp [before])]
      apply congrArg
      apply List.filter_congr
      intro x later
      rw [decide_eq_decide, behind x later]
      constructor
      · rintro ⟨fresh, lead⟩
        exact ⟨fresh, fun same => fresh (same ▸ before), lead⟩
      · rintro ⟨fresh, -, lead⟩
        exact ⟨fresh, lead⟩
    · rename_i fresh
      rw [List.filter_cons_of_pos (by exact decide_eq_true ⟨fresh, ahead⟩), List.map_cons]
      congr 2
      apply List.filter_congr
      intro x later
      rw [decide_eq_decide, behind x later, List.mem_cons]
      tauto

/-- Under the threshold and ahead of all others of its key that are. -/
def IsLeader (t : Single) (cs : List Chunk) (e : Entry) : Prop :=
  isUnder t e.1 = true ∧
    ∀ a ∈ cs.zipIdx, isUnder t a.1 = true → a.1.key = e.1.key → leads e a = true

instance (t : Single) (cs : List Chunk) (e : Entry) : Decidable (IsLeader t cs e) :=
  inferInstanceAs (Decidable (_ ∧ ∀ a ∈ _, _))

/-- The leaders of a list in order. -/
def leaders (t : Single) (cs : List Chunk) : List Entry :=
  (ordered cs).filter fun e => IsLeader t cs e

theorem mem_leaders {e : Entry} : e ∈ leaders t cs ↔ e ∈ cs.zipIdx ∧ IsLeader t cs e := by
  rw [leaders, List.mem_filter, mem_ordered, decide_eq_true_iff]

theorem strictly_ordered (cs : List Chunk) :
    (ordered cs).Pairwise fun a b => leads a b = true ∧ leads b a = false := by
  have apart : (ordered cs).Pairwise (· ≠ ·) := by
    have places := (pairwise_zipIdx cs).imp fun {a b} lt (same : a = b) => by
      rw [same] at lt
      exact Nat.lt_irrefl _ lt
    exact (List.mergeSort_perm ..).nodup_iff.mpr places
  refine (apart.and (pairwise_ordered cs)).imp_of_mem ?_
  rintro a b listed listed' ⟨other, le⟩
  refine ⟨le, Bool.eq_false_iff.mpr fun ge => other ?_⟩
  exact eq_of_leads (mem_ordered.mp listed) (mem_ordered.mp listed') le ge

/-- Entries are in order in one way only. -/
theorem eq_of_ordered {es fs : List Entry} (perm : es.Perm fs) (listed : ∀ e ∈ es, e ∈ cs.zipIdx)
    (order : es.Pairwise fun a b => leads a b = true)
    (order' : fs.Pairwise fun a b => leads a b = true) : es = fs := by
  refine List.Perm.eq_of_pairwise (fun a b here there => ?_) order order' perm
  exact eq_of_leads (listed a here) (listed b (perm.symm.subset there))

theorem rank_eq_leaders (t : Single) (cs : List Chunk) :
    rank t cs = (leaders t cs).map Prod.fst := by
  have under : cs.filter (isUnder t) = (cs.zipIdx.filter fun e => isUnder t e.1).map Prod.fst := by
    conv_lhs => rw [← List.zipIdx_map_fst 0 cs]
    exact List.filter_map
  have sorted : (cs.zipIdx.filter fun e => isUnder t e.1).mergeSort leads =
      (ordered cs).filter fun e => isUnder t e.1 := by
    have among : ∀ e ∈ (cs.zipIdx.filter fun e => isUnder t e.1).mergeSort leads,
        e ∈ cs.zipIdx := by
      intro e listed
      exact (List.mem_filter.mp (List.mem_mergeSort.mp listed)).1
    apply eq_of_ordered _ among (List.pairwise_mergeSort leads_trans leads_total _)
      ((pairwise_ordered cs).filter _)
    exact (List.mergeSort_perm ..).trans ((List.mergeSort_perm ..).symm.filter _)
  rw [rank, under, mergeSort_map_fst _ ((pairwise_zipIdx cs).filter _), zipIdxLE_eq, sorted,
    firsts_map_fst ((strictly_ordered cs).filter _), List.filter_filter, leaders]
  apply congrArg
  apply List.filter_congr
  intro e _
  rw [Bool.eq_iff_iff, Bool.and_eq_true, decide_eq_true_iff, decide_eq_true_iff, IsLeader]
  simp only [List.mem_filter, mem_ordered, List.not_mem_nil, not_false_eq_true, true_and]
  constructor
  · rintro ⟨lead, held⟩
    exact ⟨held, fun a listed under => lead a ⟨listed, under⟩⟩
  · rintro ⟨held, lead⟩
    refine ⟨?_, held⟩
    rintro a ⟨listed, under⟩ same
    exact lead a listed under same

/-! ## Leaders -/

theorem exists_leader {c : Chunk} (listed : c ∈ cs) (under : isUnder t c = true) :
    ∃ e ∈ leaders t cs, e.1.key = c.key := by
  obtain ⟨i, inside, rfl⟩ := List.getElem_of_mem listed
  have placed : (cs[i], i) ∈ ordered cs :=
    mem_ordered.mpr (List.mem_zipIdx_iff_getElem?.mpr (List.getElem?_eq_getElem inside))
  -- The first entry of the key in order leads all that come behind it.
  obtain ⟨e, found⟩ : ∃ e, (ordered cs).find? (fun e =>
      isUnder t e.1 && decide (e.1.key = cs[i].key)) = some e := by
    rw [← Option.isSome_iff_exists, List.find?_isSome]
    exact ⟨_, placed, by simp [under]⟩
  obtain ⟨held, before, after, cut, earlier⟩ := List.find?_eq_some_iff_append.mp found
  rw [Bool.and_eq_true, decide_eq_true_iff] at held
  have among : e ∈ ordered cs := List.mem_of_find?_eq_some found
  refine ⟨e, mem_leaders.mpr ⟨mem_ordered.mp among, held.1, ?_⟩, held.2⟩
  intro a here under' same
  have order := pairwise_ordered cs
  rw [← mem_ordered, cut] at here
  rw [cut] at order
  rcases List.mem_append.mp here with first | rest
  · have := earlier a first
    simp [under', same, held.2] at this
  · rcases List.mem_cons.mp rest with rfl | later
    · exact leads_refl a
    · exact (List.pairwise_cons.mp (List.pairwise_append.mp order).2.1).1 a later

/-- Two leaders of one key are one. -/
theorem eq_of_leaders {a b : Entry} (here : a ∈ leaders t cs) (there : b ∈ leaders t cs)
    (same : a.1.key = b.1.key) : a = b := by
  obtain ⟨listed, under, lead⟩ := mem_leaders.mp here
  obtain ⟨listed', under', lead'⟩ := mem_leaders.mp there
  exact eq_of_leads listed listed' (lead b listed' under' same.symm) (lead' a listed under same)

theorem ranks_leaders (t : Single) (cs : List Chunk) : Ranks t cs (leaders t cs) := by
  have order := (strictly_ordered cs).filter fun e => IsLeader t cs e
  constructor
  · exact fun e here => (mem_leaders.mp here).1
  · exact fun e here => isUnder_iff.mp (mem_leaders.mp here).2.1
  · refine order.imp ?_
    rintro a b ⟨le, -⟩
    rw [leads_iff] at le
    omega
  · refine order.imp ?_
    rintro a b ⟨-, not_ge⟩ tied
    rw [Bool.eq_false_iff, ne_eq, leads_iff] at not_ge
    omega
  · refine order.imp_of_mem ?_
    rintro a b here there ⟨le, not_ge⟩ same
    rw [eq_of_leaders here there same, ← Bool.not_eq_true] at not_ge
    exact not_ge (leads_refl b)
  · intro c listed under
    obtain ⟨e, here, same⟩ := exists_leader listed under
    refine ⟨e, ⟨here, same⟩, ?_⟩
    rintro a ⟨there, same'⟩
    exact eq_of_leaders there here (same'.trans same.symm)
  · intro e here a listed under same
    exact leads_iff.mp ((mem_leaders.mp here).2.2 a listed under same)

/-- Ranking has one result only. -/
theorem Ranks.eq_leaders {es : List Entry} (ranks : Ranks t cs es) : es = leaders t cs := by
  have strict : es.Pairwise fun a b => leads a b = true ∧ a ≠ b := by
    refine (ranks.ascending.and (ranks.stable.and ranks.apart)).imp ?_
    rintro a b ⟨le, later, other⟩
    refine ⟨leads_iff.mpr ?_, fun same => other (same ▸ rfl)⟩
    omega
  have leader : ∀ e ∈ es, IsLeader t cs e := by
    intro e here
    refine ⟨isUnder_iff.mpr (ranks.under e here), fun a listed under same => ?_⟩
    exact leads_iff.mpr (ranks.nearest e here a listed under same)
  have order := strictly_ordered cs
  refine eq_of_ordered ?_ ranks.listed (strict.imp And.left)
    ((order.imp And.left).filter _)
  refine (List.perm_ext_iff_of_nodup (strict.imp And.right) ?_).mpr fun e => ?_
  · refine (order.filter _).imp ?_
    rintro a b ⟨le, not_ge⟩ rfl
    rw [le] at not_ge
    cases not_ge
  · constructor
    · intro here
      exact mem_leaders.mpr ⟨ranks.listed e here, leader e here⟩
    · intro there
      obtain ⟨listed, under, lead⟩ := mem_leaders.mp there
      obtain ⟨a, ⟨here, same⟩, -⟩ := ranks.shown e.1 (List.fst_mem_of_mem_zipIdx listed) under
      have among := ranks.listed a here
      have le := lead a among (leader a here).1 same
      have ge := (leader a here).2 e listed under same.symm
      exact eq_of_leads listed among le ge ▸ here

/-! ## Lower thresholds -/

/-- What is under a threshold is under one that is not less. -/
theorem isUnder_mono {c : Chunk} (le : t.lt u = true ∨ t.same u = true)
    (under : isUnder t c = true) : isUnder u c = true := by
  obtain ⟨x, own, below⟩ := isUnder_iff.mp under
  refine isUnder_iff.mpr ⟨x, own, ?_⟩
  simp only [Binary.lt, Binary.same, Bool.and_eq_true, Bool.not_eq_true', decide_eq_true_eq]
    at le below ⊢
  rcases le with ⟨⟨-, number⟩, less⟩ | ⟨⟨-, number⟩, same⟩
  · exact ⟨⟨below.1.1, number⟩, Int.lt_trans below.2 less⟩
  · exact ⟨⟨below.1.1, number⟩, same ▸ below.2⟩

/-- Of two chunks under some threshold, the nearer is under any that the other is under. -/
theorem isUnder_of_place_le {c d : Chunk} (number : isUnder u c = true)
    (nearer : place c ≤ place d) (under : isUnder t d = true) : isUnder t c = true := by
  obtain ⟨x, own, below⟩ := isUnder_iff.mp number
  obtain ⟨y, own', below'⟩ := isUnder_iff.mp under
  rw [place, place, own, own'] at nearer
  refine isUnder_iff.mpr ⟨x, own, Binary.lt_of_rank_le ?_ nearer below'⟩
  rw [Binary.lt, Bool.and_eq_true, Bool.and_eq_true, Bool.not_eq_true'] at below
  exact below.1.1

/-- The leaders under a lower threshold are those of a higher one that are under it. -/
theorem leaders_filter (le : t.lt u = true ∨ t.same u = true) (cs : List Chunk) :
    leaders t cs = (leaders u cs).filter fun e => isUnder t e.1 := by
  rw [leaders, leaders, List.filter_filter]
  apply List.filter_congr
  intro e _
  rw [Bool.eq_iff_iff, Bool.and_eq_true, decide_eq_true_iff, decide_eq_true_iff]
  constructor
  · rintro ⟨under, lead⟩
    refine ⟨under, isUnder_mono le under, fun a listed under' same => ?_⟩
    cases low : isUnder t a.1 with
    | true => exact lead a listed low same
    | false =>
      have nearer : ¬ place a.1 ≤ place e.1 := fun before => by
        rw [isUnder_of_place_le under' before under] at low
        cases low
      exact leads_iff.mpr (.inl (by omega))
  · rintro ⟨under, -, lead⟩
    exact ⟨under, fun a listed under' same => lead a listed (isUnder_mono le under') same⟩

theorem leaders_isPrefix (le : t.lt u = true ∨ t.same u = true) (cs : List Chunk) :
    leaders t cs <+: leaders u cs := by
  have ranks := ranks_leaders u cs
  have closed : (leaders u cs).Pairwise fun a b => isUnder t b.1 = true → isUnder t a.1 = true := by
    refine ranks.ascending.imp_of_mem fun here _ nearer under => ?_
    exact isUnder_of_place_le (isUnder_iff.mpr (ranks.under _ here)) nearer under
  have front := filter_take_prefix (q := fun _ => true) (k := (leaders u cs).length) closed
    (fun _ _ => rfl) (Nat.le_refl _)
  rw [List.take_length, List.filter_true, ← leaders_filter le] at front
  exact front

/-- Ranking what is ranked only removes what is not under the threshold. -/
theorem rank_rank (t u : Single) (cs : List Chunk) :
    rank t (rank u cs) = (rank u cs).filter (isUnder t) := by
  have ranks := ranks_leaders u cs
  have order : (rank u cs).Pairwise fun c d => place c ≤ place d := by
    rw [rank_eq_leaders]
    exact List.pairwise_map.mpr ranks.ascending
  have apart : (rank u cs).Pairwise fun c d => c.key ≠ d.key := by
    rw [rank_eq_leaders]
    exact List.pairwise_map.mpr ranks.apart
  rw [rank, List.mergeSort_of_pairwise, firsts_eq_self (apart.filter _)]
  · exact fun _ _ => List.not_mem_nil
  · exact (order.filter _).imp decide_eq_true

end Ranking

open Ranking in
/-- The result of ranking is the only one there can be. A threshold that is not greater takes the
front of it, from all the chunks and from what a greater one leaves of them. Ranking twice is
ranking once. -/
theorem rank_exact (t : Single) (cs : List Chunk) :
    (∀ ds, rank t cs = ds ↔ ∃ es, Ranks t cs es ∧ es.map Prod.fst = ds) ∧
    (∀ u, t.lt u = true ∨ t.same u = true →
      rank t cs <+: rank u cs ∧ rank t (rank u cs) = rank t cs) ∧
    rank t (rank t cs) = rank t cs := by
  refine ⟨fun ds => ⟨?_, ?_⟩, fun u le => ⟨?_, ?_⟩, ?_⟩
  · rintro rfl
    exact ⟨leaders t cs, ranks_leaders t cs, (rank_eq_leaders t cs).symm⟩
  · rintro ⟨es, ranks, rfl⟩
    rw [rank_eq_leaders, ranks.eq_leaders]
  · rw [rank_eq_leaders, rank_eq_leaders]
    exact (leaders_isPrefix le cs).map _
  · rw [rank_rank, rank_eq_leaders, rank_eq_leaders, leaders_filter le, List.filter_map]
    rfl
  · rw [rank_rank]
    exact List.filter_eq_self.mpr fun c listed => (mem_of_mem_rank listed).2

namespace Ranking

/-- A comment that was found at a distance. -/
def remark (content : String) (distance : Option Single) : Chunk :=
  { content, distance, source := "", startLine := 1, endLine := 1, kind := .comment,
    names := .empty }

/-- Comments without a distance, at none that is a number, at both zeros, some of them twice, and
farther away. -/
def remarks : List Chunk :=
  [remark "a" none, remark "b" (some .nan), remark "c" (some (.zero false)),
    remark "d" (some (.zero true)), remark "c" (some (.zero true)), remark "d" (some (.zero true)),
    remark "e" (some (.ofNat 1)), remark "f" (some (.infinity false))]

end Ranking

open Ranking in
/-- At `-0` come two of the comments, each once and in their order. They are the front of what is
under infinity. -/
theorem rank_exact_remarks :
    rank (Binary.ofRatio false 1 2) remarks =
      [remark "d" (some (.zero true)), remark "c" (some (.zero true))] ∧
    (∃ es, Ranks (Binary.ofRatio false 1 2) remarks es ∧
      es.map Prod.fst = [remark "d" (some (.zero true)), remark "c" (some (.zero true))]) ∧
    rank (Binary.ofRatio false 1 2) remarks <+: rank (.infinity false) remarks ∧
    rank (Binary.ofRatio false 1 2) (rank (.infinity false) remarks) =
      rank (Binary.ofRatio false 1 2) remarks := by
  obtain ⟨only, lower, -⟩ := rank_exact (Binary.ofRatio false 1 2) remarks
  have less : (Binary.ofRatio false 1 2 : Single).lt (.infinity false) = true := by decide +kernel
  have under : remarks.filter (isUnder (Binary.ofRatio false 1 2)) =
      [remark "c" (some (.zero false)), remark "d" (some (.zero true)),
        remark "c" (some (.zero true)), remark "d" (some (.zero true))] := by rfl
  have near : ∀ content, place (remark content (some (.zero true))) = -1 := fun _ => rfl
  have far : ∀ content, place (remark content (some (.zero false))) = 0 := fun _ => rfl
  have ranked : rank (Binary.ofRatio false 1 2) remarks =
      [remark "d" (some (.zero true)), remark "c" (some (.zero true))] := by
    have sorted : (remarks.filter (isUnder (Binary.ofRatio false 1 2))).mergeSort
          (fun c d => place c ≤ place d) =
        [remark "d" (some (.zero true)), remark "c" (some (.zero true)),
          remark "d" (some (.zero true)), remark "c" (some (.zero false))] := by
      rw [under]
      simp [List.mergeSort, near, far]
    rw [rank, sorted]
    rfl
  obtain ⟨front, again⟩ := lower (.infinity false) (.inl less)
  exact ⟨ranked, (only _).mp ranked, front, again⟩

end CodeSearch
