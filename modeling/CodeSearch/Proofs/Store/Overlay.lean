import CodeSearch.Store.Handle

/-! # Tables over tables

What is inserted last under a key is what stays there. A table put over another hides what
the other has under the same keys and leaves the rest.
-/

namespace CodeSearch

namespace Table

variable {α : Type}

theorem insertAll_append (t : Table α) (es fs : List (String × α)) :
    t.insertAll (es ++ fs) = (t.insertAll es).insertAll fs :=
  List.foldl_append

theorem find?_append (key : String) (es fs : List (String × α)) :
    find? key (es ++ fs) = (find? key es).or (find? key fs) := by
  induction es with
  | nil => simp [find?]
  | cons e es ih =>
    simp only [List.cons_append, find?]
    split
    · rfl
    · exact ih

/-- The last entry under a key decides. -/
theorem get?_insertAll (t : Table α) (es : List (String × α)) (key : String) :
    (t.insertAll es).get? key = (find? key es.reverse).or (t.get? key) := by
  induction es generalizing t with
  | nil => rfl
  | cons e es ih =>
    have later := ih (t.insert e.1 e.2)
    simp only [insertAll, List.foldl_cons] at later ⊢
    rw [later, List.reverse_cons, find?_append, get?_insert, Option.or_assoc]
    congr 1
    by_cases h : key = e.1
    · simp [find?, h]
    · simp [find?, h, Ne.symm h]

theorem find?_isSome_iff {key : String} {es : List (String × α)} :
    (find? key es).isSome ↔ key ∈ es.map (·.1) := by
  induction es with
  | nil => simp [find?]
  | cons e es ih =>
    simp only [find?, List.map_cons, List.mem_cons]
    split
    · simp [*]
    · rename_i h
      simp [ih, Ne.symm h]

theorem mem_keys_insertAll {t : Table α} {es : List (String × α)} {key : String} :
    key ∈ (t.insertAll es).keys ↔ key ∈ es.map (·.1) ∨ key ∈ t.keys := by
  rw [mem_keys_iff, get?_insertAll, mem_keys_iff, Option.isSome_or, Bool.or_eq_true,
    find?_isSome_iff, List.map_reverse, List.mem_reverse]

/-- An entry that an insertion leaves under a key was inserted or was there. -/
theorem mem_of_get?_insertAll {t : Table α} {es : List (String × α)} {key : String} {value : α}
    (h : (t.insertAll es).get? key = some value) :
    (key, value) ∈ es ∨ t.get? key = some value := by
  rw [get?_insertAll] at h
  cases found : find? key es.reverse with
  | none =>
    right
    simpa [found] using h
  | some v =>
    left
    have hv : v = value := by simpa [found] using h
    exact List.mem_reverse.mp (mem_of_find? (hv ▸ found))

/-- A property of all entries. -/
def All (holds : String → α → Prop) (t : Table α) : Prop :=
  ∀ key value, t.get? key = some value → holds key value

section All

variable {holds holds' : String → α → Prop} {t : Table α} {es : List (String × α)}

theorem all_empty : All holds .empty := nofun

theorem All.mono (weaker : ∀ key value, holds key value → holds' key value) (all : t.All holds) :
    t.All holds' :=
  fun key value there => weaker key value (all key value there)

theorem All.insertAll (all : t.All holds) (added : ∀ e ∈ es, holds e.1 e.2) :
    (t.insertAll es).All holds := by
  intro key value there
  rcases mem_of_get?_insertAll there with new | old
  · exact added (key, value) new
  · exact all key value old

end All

/-- Put a table over another. -/
def covered (base top : Table α) : Table α := base.insertAll top.entries

theorem find?_reverse_entries (t : Table α) (key : String) :
    find? key t.entries.reverse = t.get? key := by
  cases found : find? key t.entries.reverse with
  | some v => exact (mem_entries_iff.mp (List.mem_reverse.mp (mem_of_find? found))).symm
  | none =>
    have absent : ¬(find? key t.entries.reverse).isSome := by simp [found]
    rw [find?_isSome_iff, List.map_reverse, List.mem_reverse] at absent
    cases there : t.get? key with
    | none => rfl
    | some v => exact absurd (List.mem_map_of_mem (mem_entries_iff.mpr there)) absent

@[simp] theorem get?_covered (base top : Table α) (key : String) :
    (base.covered top).get? key = (top.get? key).or (base.get? key) := by
  rw [covered, get?_insertAll, find?_reverse_entries]

theorem covered_empty (t : Table α) : t.covered empty = t := rfl

theorem empty_covered (t : Table α) : empty.covered t = t := ext_get? fun key => by simp

theorem ofList_entries (t : Table α) : ofList t.entries = t := empty_covered t

/-- A table that is put over keys of its own hides nothing. -/
theorem eq_of_covered {t t' top : Table α} (same : t.covered top = t'.covered top)
    (apart : ∀ key, top.get? key ≠ none → t.get? key = none ∧ t'.get? key = none) : t = t' := by
  refine ext_get? fun key => ?_
  cases above : top.get? key with
  | none =>
    have look := congrArg (fun t => t.get? key) same
    simpa [above] using look
  | some v =>
    obtain ⟨none_, none_'⟩ := apart key (by simp [above])
    exact none_.trans none_'.symm

theorem isEmpty_iff {t : Table α} : t.isEmpty = true ↔ t = empty := by
  obtain ⟨es, ascending⟩ := t
  simp [isEmpty, empty]

end Table

namespace Store

/-- The ids that an overlay is asked for come from the table above, where it has them. -/
theorem get?_overlay (base top : Table Record) (ids : List String) (id : String) :
    (overlay base ids top).get? id =
      if id ∈ ids then (top.get? id).or (base.get? id) else base.get? id := by
  rw [overlay, Table.get?_insertAll]
  have picked : ∀ ids : List String,
      Table.find? id (ids.filterMap fun i => (top.get? i).map (i, ·)) =
        if id ∈ ids then top.get? id else none := by
    intro ids
    induction ids with
    | nil => rfl
    | cons i ids ih =>
      cases there : top.get? i with
      | none =>
        by_cases same : id = i
        · subst same
          simp [there, ih]
        · simp [there, ih, same]
      | some r =>
        by_cases same : id = i
        · simp [there, Table.find?, same]
        · simp [there, Table.find?, ih, same, Ne.symm same]
  rw [← List.filterMap_reverse, picked]
  simp only [List.mem_reverse]
  split <;> simp

theorem all_overlay {holds : String → Record → Prop} {base top : Table Record}
    (base_ : base.All holds) (top_ : top.All holds) (ids : List String) :
    (overlay base ids top).All holds := by
  apply Table.All.insertAll base_
  intro e picked
  obtain ⟨id, -, there⟩ := List.mem_filterMap.mp picked
  obtain ⟨r, stored, rfl⟩ := Option.map_eq_some_iff.mp there
  exact top_ id r stored

end Store

end CodeSearch
