/-! # Tables

A table holds one value under each of its keys, in ascending order of the keys. Two tables
with the same look-ups are equal.
-/

namespace CodeSearch

structure Table (α : Type) where
  entries : List (String × α)
  ascending : entries.Pairwise fun a b => a.1 < b.1

namespace Table

variable {α : Type}

def find? (key : String) : List (String × α) → Option α
  | [] => none
  | (k, v) :: rest => if k = key then some v else find? key rest

/-- Entries in ascending order with a value put under a key. -/
def put (key : String) (value : α) : List (String × α) → List (String × α)
  | [] => [(key, value)]
  | (k, v) :: rest =>
    if key < k then (key, value) :: (k, v) :: rest
    else if k = key then (key, value) :: rest
    else (k, v) :: put key value rest

theorem mem_put {key : String} {value : α} {e : String × α} {es : List (String × α)}
    (h : e ∈ put key value es) : e = (key, value) ∨ e ∈ es := by
  induction es with
  | nil => simpa [put] using h
  | cons a es ih =>
    unfold put at h
    split at h
    · simpa using h
    · split at h
      · rcases List.mem_cons.1 h with h | h <;> simp [h]
      · rcases List.mem_cons.1 h with h | h
        · simp [h]
        · rcases ih h with h | h <;> simp [h]

theorem lt_of_not_lt_of_ne {a b : String} (h : ¬ a < b) (h' : b ≠ a) : b < a := by
  rcases (Std.le_total : a ≤ b ∨ b ≤ a) with hab | hba
  · exact absurd (Std.lt_of_le_of_ne hab (Ne.symm h')) h
  · exact Std.lt_of_le_of_ne hba h'

theorem put_ascending {key : String} {value : α} {es : List (String × α)}
    (h : es.Pairwise fun a b => a.1 < b.1) :
    (put key value es).Pairwise fun a b => a.1 < b.1 := by
  induction es with
  | nil => simp [put]
  | cons a es ih =>
    obtain ⟨k, v⟩ := a
    have hk := List.pairwise_cons.1 h
    unfold put
    split
    · rename_i hlt
      refine List.pairwise_cons.2 ⟨fun e he => ?_, h⟩
      rcases List.mem_cons.1 he with rfl | he
      · exact hlt
      · exact String.lt_trans hlt (hk.1 e he)
    · split
      · rename_i heq
        subst heq
        exact List.pairwise_cons.2 ⟨hk.1, hk.2⟩
      · rename_i hlt hne
        refine List.pairwise_cons.2 ⟨fun e he => ?_, ih hk.2⟩
        rcases mem_put he with rfl | he
        · exact lt_of_not_lt_of_ne hlt hne
        · exact hk.1 e he

theorem find?_put (key other : String) (value : α) (es : List (String × α)) :
    find? other (put key value es) = if other = key then some value else find? other es := by
  induction es with
  | nil => simp [put, find?, eq_comm]
  | cons a es ih =>
    obtain ⟨k, v⟩ := a
    simp only [put]
    split
    · simp only [find?]
      grind
    · split <;> simp only [find?] <;> grind

theorem find?_eq_some_of_mem {es : List (String × α)} (h : es.Pairwise fun a b => a.1 < b.1)
    {k : String} {v : α} (hm : (k, v) ∈ es) : find? k es = some v := by
  induction es with
  | nil => simp at hm
  | cons a es ih =>
    obtain ⟨k', v'⟩ := a
    have hk := List.pairwise_cons.1 h
    simp only [find?]
    rcases List.mem_cons.1 hm with he | hm
    · simp_all
    · have := hk.1 _ hm
      have hne : k' ≠ k := fun heq => String.lt_irrefl k (heq ▸ this)
      simp [hne, ih hk.2 hm]

theorem mem_of_find? {es : List (String × α)} {k : String} {v : α} (h : find? k es = some v) :
    (k, v) ∈ es := by
  induction es with
  | nil => simp [find?] at h
  | cons a es ih =>
    obtain ⟨k', v'⟩ := a
    simp only [find?] at h
    split at h
    · simp_all
    · exact List.mem_cons_of_mem _ (ih h)

def empty : Table α := ⟨[], .nil⟩

instance : Inhabited (Table α) := ⟨empty⟩

def get? (t : Table α) (key : String) : Option α := find? key t.entries

/-- Put a value under a key, in place of what was there. -/
def insert (t : Table α) (key : String) (value : α) : Table α :=
  ⟨put key value t.entries, put_ascending t.ascending⟩

def keys (t : Table α) : List String := t.entries.map (·.1)

def size (t : Table α) : Nat := t.entries.length

def isEmpty (t : Table α) : Bool := t.entries.isEmpty

def contains (t : Table α) (key : String) : Bool := (t.get? key).isSome

/-- Insert entries in order, so that of two under one key the later stays. -/
def insertAll (t : Table α) (es : List (String × α)) : Table α :=
  es.foldl (fun t e => t.insert e.1 e.2) t

def ofList (es : List (String × α)) : Table α := empty.insertAll es

@[simp] theorem get?_empty (key : String) : (empty : Table α).get? key = none := rfl

@[simp] theorem get?_insert (t : Table α) (key other : String) (value : α) :
    (t.insert key value).get? other = if other = key then some value else t.get? other :=
  find?_put key other value t.entries

theorem mem_entries_iff {t : Table α} {k : String} {v : α} :
    (k, v) ∈ t.entries ↔ t.get? k = some v :=
  ⟨find?_eq_some_of_mem t.ascending, mem_of_find?⟩

theorem mem_keys_iff {t : Table α} {k : String} : k ∈ t.keys ↔ (t.get? k).isSome := by
  simp only [keys, List.mem_map, Option.isSome_iff_exists]
  constructor
  · rintro ⟨⟨k, v⟩, h, rfl⟩
    exact ⟨v, mem_entries_iff.1 h⟩
  · rintro ⟨v, h⟩
    exact ⟨(k, v), mem_entries_iff.2 h, rfl⟩

theorem entries_eq_of_get? {es fs : List (String × α)} (he : es.Pairwise fun a b => a.1 < b.1)
    (hf : fs.Pairwise fun a b => a.1 < b.1) (h : ∀ k, find? k es = find? k fs) : es = fs := by
  induction es generalizing fs with
  | nil =>
    cases fs with
    | nil => rfl
    | cons b fs =>
      have := h b.1
      simp [find?] at this
  | cons a es ih =>
    have ha := List.pairwise_cons.1 he
    cases fs with
    | nil =>
      have := h a.1
      simp [find?] at this
    | cons b fs =>
      have hb := List.pairwise_cons.1 hf
      have h1 : find? a.1 (b :: fs) = some a.2 := by rw [← h]; simp [find?]
      have h2 : find? b.1 (a :: es) = some b.2 := by rw [h]; simp [find?]
      have hab : a = b := by
        rcases List.mem_cons.1 (mem_of_find? h1) with h1 | h1
        · simpa using h1
        · rcases List.mem_cons.1 (mem_of_find? h2) with h2 | h2
          · simpa using h2.symm
          · exact absurd (String.lt_trans (hb.1 _ h1) (ha.1 _ h2)) (String.lt_irrefl _)
      subst hab
      congr 1
      refine ih ha.2 hb.2 fun k => ?_
      have hk := h k
      simp only [find?] at hk
      split at hk
      · rename_i heq
        subst heq
        have no : ∀ gs : List (String × α), (∀ e ∈ gs, a.1 < e.1) → find? a.1 gs = none := by
          intro gs hgs
          cases hfind : find? a.1 gs with
          | none => rfl
          | some v => exact absurd (hgs _ (mem_of_find? hfind)) (String.lt_irrefl _)
        rw [no es ha.1, no fs hb.1]
      · exact hk

/-- Two tables with the same look-ups are equal. -/
theorem ext_get? {s t : Table α} (h : ∀ k, s.get? k = t.get? k) : s = t := by
  obtain ⟨es, he⟩ := s
  obtain ⟨fs, hf⟩ := t
  simpa using entries_eq_of_get? he hf h

end Table

end CodeSearch
