import CodeSearch.Proofs.Store.Overlay

/-! # The steps of a store

What one operation can do, said once for each: which results it has, and what it leaves of
the store and of the files.
-/

namespace CodeSearch

namespace StoreAction

variable {α β : Type} {x : StoreAction α} {f : α → StoreAction β} {fs fs' : FileSystem}

theorem bind_ok {b : β} :
    (x >>= f) fs = (.ok b, fs') ↔ ∃ a mid, x fs = (.ok a, mid) ∧ f a mid = (.ok b, fs') := by
  change ExceptT.bindCont f (x fs).1 (x fs).2 = _ ↔ _
  rcases hx : x fs with ⟨_ | a, mid⟩
  · constructor
    · intro h
      cases h
    · rintro ⟨a, _, h, -⟩
      cases h
  · constructor
    · intro h
      exact ⟨a, mid, rfl, h⟩
    · rintro ⟨_, _, h, h'⟩
      cases h
      exact h'

theorem bind_error {e : StoreError} :
    (x >>= f) fs = (.error e, fs') ↔
      x fs = (.error e, fs') ∨ ∃ a mid, x fs = (.ok a, mid) ∧ f a mid = (.error e, fs') := by
  change ExceptT.bindCont f (x fs).1 (x fs).2 = _ ↔ _
  rcases hx : x fs with ⟨e' | a, mid⟩
  · constructor
    · intro h
      cases h
      exact .inl rfl
    · rintro (h | ⟨_, _, h, -⟩)
      · cases h
        rfl
      · cases h
  · constructor
    · intro h
      exact .inr ⟨a, mid, rfl, h⟩
    · rintro (h | ⟨_, _, h, h'⟩)
      · cases h
      · cases h
        exact h'

theorem bind_of_ok {a : α} {mid : FileSystem} (h : x fs = (.ok a, mid)) :
    (x >>= f) fs = f a mid := by
  change ExceptT.bindCont f (x fs).1 (x fs).2 = _
  rw [h]
  rfl

theorem bind_of_error {e : StoreError} {mid : FileSystem} (h : x fs = (.error e, mid)) :
    (x >>= f) fs = (.error e, mid) := by
  change ExceptT.bindCont f (x fs).1 (x fs).2 = _
  rw [h]
  rfl

theorem pure_ok {a b : α} : (pure a : StoreAction α) fs = (.ok b, fs') ↔ a = b ∧ fs = fs' := by
  change (Except.ok a, fs) = _ ↔ _
  simp

theorem check_ok {r : Except StoreError α} {a : α} :
    check r fs = (.ok a, fs') ↔ r = .ok a ∧ fs = fs' := by
  change (r, fs) = (Except.ok a, fs') ↔ _
  exact Prod.mk.injEq ..  ▸ Iff.rfl

theorem change_of_ok {f : FileSystem → Except FileError FileSystem} (h : f fs = .ok fs') :
    change f fs = (.ok (), fs') := by
  simp [change, h]

theorem change_cases {f : FileSystem → Except FileError FileSystem} {r : Except StoreError Unit}
    (run : change f fs = (r, fs')) :
    (r = .ok () ∧ f fs = .ok fs') ∨
      ∃ e, r = .error (.files e.message) ∧ f fs = .error e ∧ fs' = fs := by
  unfold change at run
  split at run
  · rename_i after changed
    obtain ⟨rfl, rfl⟩ := Prod.mk.inj run
    exact .inl ⟨rfl, changed⟩
  · rename_i e failed
    obtain ⟨rfl, rfl⟩ := Prod.mk.inj run
    exact .inr ⟨e, rfl, failed, rfl⟩

end StoreAction

/-- Holdings with some records put into them. -/
def Holdings.upserted (h : Holdings) (es : List (String × Record)) : Holdings where
  records := h.records.insertAll es
  index := { h.index with vectors := h.index.vectors.insertAll (es.map fun e => (e.1, e.2.vector)) }
  dirty := h.dirty.insertAll (es.map fun e => (e.1, ()))

namespace Holdings

theorem upserted_append (h : Holdings) (es fs : List (String × Record)) :
    h.upserted (es ++ fs) = (h.upserted es).upserted fs := by
  simp [upserted, Table.insertAll_append]

theorem mem_dirty_upserted {h : Holdings} {es : List (String × Record)} {id : String} :
    id ∈ (h.upserted es).dirty.keys ↔ id ∈ es.map (·.1) ∨ id ∈ h.dirty.keys := by
  simp [upserted, Table.mem_keys_insertAll]

theorem add_eq {h : Holdings} {e : String × Record} (fits : e.2.vector.length = h.index.dimension) :
    Store.Holdings.add h e = .ok (h.upserted [e]) := by
  simp [Store.Holdings.add, Index.upsert, Index.check, fits, upserted, Table.insertAll, Except.map]

/-- Vectors of the right length are all accepted. -/
theorem foldlM_add {h : Holdings} {es : List (String × Record)}
    (fits : ∀ e ∈ es, e.2.vector.length = h.index.dimension) :
    es.foldlM Store.Holdings.add h = .ok (h.upserted es) := by
  induction es generalizing h with
  | nil => rfl
  | cons e es ih =>
    rw [List.foldlM_cons, add_eq (fits e List.mem_cons_self)]
    have rest : ∀ e' ∈ es, e'.2.vector.length = (h.upserted [e]).index.dimension :=
      fun e' he' => fits e' (List.mem_cons_of_mem _ he')
    change es.foldlM Store.Holdings.add (h.upserted [e]) = _
    rw [ih rest, ← upserted_append, List.singleton_append]

theorem eq_of_add {h h' : Holdings} {e : String × Record} (ok : Store.Holdings.add h e = .ok h') :
    h' = h.upserted [e] := by
  by_cases fits : e.2.vector.length = h.index.dimension
  · rw [add_eq fits] at ok
    exact (Except.ok.inj ok).symm
  · simp [Store.Holdings.add, Index.upsert, Index.check, fits, Except.map] at ok

theorem eq_of_foldlM_add {h h' : Holdings} {es : List (String × Record)}
    (ok : es.foldlM Store.Holdings.add h = .ok h') : h' = h.upserted es := by
  induction es generalizing h with
  | nil => exact (Except.ok.inj ok).symm
  | cons e es ih =>
    rw [List.foldlM_cons] at ok
    cases first : Store.Holdings.add h e with
    | error _ =>
      rw [first] at ok
      cases ok
    | ok mid =>
      rw [first] at ok
      rw [ih ok, eq_of_add first, ← upserted_append, List.singleton_append]

end Holdings

theorem Batch.mem_entries_vector {b : Batch} {e : String × Record} (he : e ∈ b.entries) :
    e.2.vector ∈ b.vectors := by
  simp only [Batch.entries, List.mem_map] at he
  obtain ⟨⟨id, v, d, m⟩, hz, rfl⟩ := he
  exact (List.of_mem_zip (List.of_mem_zip hz).2).1

theorem Batch.mem_entries_metadata {b : Batch} {e : String × Record} (he : e ∈ b.entries) :
    e.2.metadata ∈ b.metadatas := by
  simp only [Batch.entries, List.mem_map] at he
  obtain ⟨⟨id, v, d, m⟩, hz, rfl⟩ := he
  exact (List.of_mem_zip (List.of_mem_zip (List.of_mem_zip hz).2).2).2

namespace Store

/-- A store that serves requests holds an index for vectors of its own length. -/
def Serves (s : Store) (h : Holdings) : Prop :=
  s.holdings = some h ∧ h.index.dimension = s.dimension

theorem ready_ok {s : Store} {h : Holdings} : s.ready = .ok h ↔ s.holdings = some h := by
  cases held : s.holdings with
  | none => simp [ready, held]
  | some h' => simp [ready, held]

/-- A batch is taken as a whole if its columns are even and its vectors fit. -/
theorem add_eq_ok {s : Store} {h : Holdings} {b : Batch} (serves : s.Serves h)
    (even : b.isEven = true) (fits : ∀ v ∈ b.vectors, v.length = s.dimension) :
    s.add b = .ok { s with holdings := some (h.upserted b.entries) } := by
  obtain ⟨held, dimension⟩ := serves
  have noneFails : (b.vectors.find? fun v => v.length ≠ s.dimension) = none := by
    simpa using fits
  have taken : b.entries.foldlM Holdings.add h = .ok (h.upserted b.entries) :=
    Holdings.foldlM_add fun e he => dimension ▸ fits _ (Batch.mem_entries_vector he)
  unfold add
  rw [even, noneFails]
  simp only [ready_ok.mpr held]
  change (do let h ← b.entries.foldlM Holdings.add h; return { s with holdings := some h }) = _
  rw [taken]
  rfl

/-- A batch that was taken is in the store, and nothing else changed. -/
theorem add_cases {s t : Store} {b : Batch} (ok : s.add b = .ok t) :
    b.isEven = true ∧ (∀ v ∈ b.vectors, v.length = s.dimension) ∧
      ∃ h, s.holdings = some h ∧ t = { s with holdings := some (h.upserted b.entries) } := by
  unfold add at ok
  cases even : b.isEven with
  | false => simp [even] at ok
  | true =>
    simp only [even, Bool.not_true, Bool.false_eq_true, if_false] at ok
    cases bad : b.vectors.find? fun v => v.length ≠ s.dimension with
    | some v =>
      rw [bad] at ok
      cases ok
    | none =>
      refine ⟨rfl, by simpa using bad, ?_⟩
      rw [bad] at ok
      cases held : s.holdings with
      | none =>
        simp only [Store.ready, held] at ok
        cases ok
      | some h =>
        simp only [Store.ready, held] at ok
        change (do let h ← b.entries.foldlM Holdings.add h; return { s with holdings := some h }) =
          Except.ok t at ok
        cases taken : b.entries.foldlM Holdings.add h with
        | error e =>
          rw [taken] at ok
          cases ok
        | ok h' =>
          rw [taken] at ok
          cases ok
          exact ⟨h, rfl, by rw [Holdings.eq_of_foldlM_add taken]⟩

/-- What comes before a snapshot is written: the directories and the lock. -/
def prepare (p : Path) : StoreAction Unit := do
  makeParents p
  lock p

/-- Everything that a flush can have done when it succeeds. -/
theorem flush_cases {s t : Store} {fs fs' : FileSystem} (ok : s.flush fs = (.ok t, fs')) :
    ∃ h, s.holdings = some h ∧
      ((s.path = none ∧ t = { s with holdings := some { h with dirty := .empty } } ∧ fs' = fs) ∨
        ∃ p, s.path = some p ∧
          ((h.dirty.isEmpty = true ∧ t = s ∧ fs' = fs) ∨
            (h.dirty.isEmpty = false ∧ ∃ disk ready after,
              prepare p fs = (.ok (), ready) ∧ s.load p ready = (.ok disk, after) ∧
              s.writeSnapshot p (overlay disk h.dirty.keys h.records) after = (.ok (), fs') ∧
              (((overlay disk h.dirty.keys h.records).keys = h.records.keys ∧
                  t = { s with holdings := some { h with dirty := .empty } }) ∨
                ((overlay disk h.dirty.keys h.records).keys ≠ h.records.keys ∧
                  ∃ index, s.indexOf (overlay disk h.dirty.keys h.records) = .ok index ∧
                    t = { s with
                      holdings :=
                        some ⟨overlay disk h.dirty.keys h.records, index, .empty⟩ }))))) := by
  obtain ⟨h, mid, checked, ok⟩ := StoreAction.bind_ok.mp ok
  obtain ⟨ready, rfl⟩ := StoreAction.check_ok.mp checked
  refine ⟨h, ready_ok.mp ready, ?_⟩
  cases hp : s.path with
  | none =>
    simp only [hp] at ok
    obtain ⟨rfl, rfl⟩ := StoreAction.pure_ok.mp ok
    exact .inl ⟨rfl, rfl, rfl⟩
  | some p =>
    refine .inr ⟨p, rfl, ?_⟩
    simp only [hp] at ok
    cases clean : h.dirty.isEmpty with
    | true =>
      simp only [clean, if_true] at ok
      obtain ⟨rfl, rfl⟩ := StoreAction.pure_ok.mp ok
      exact .inl ⟨rfl, rfl, rfl⟩
    | false =>
      simp only [clean, Bool.false_eq_true, if_false] at ok
      obtain ⟨_, made, parents, ok⟩ := StoreAction.bind_ok.mp ok
      obtain ⟨_, locked, lock, ok⟩ := StoreAction.bind_ok.mp ok
      obtain ⟨disk, after, loaded, ok⟩ := StoreAction.bind_ok.mp ok
      obtain ⟨_, written, write, ok⟩ := StoreAction.bind_ok.mp ok
      have prepared : prepare p fs = (.ok (), locked) :=
        StoreAction.bind_ok.mpr ⟨_, _, parents, lock⟩
      refine .inr ⟨rfl, disk, locked, after, prepared, loaded, ?_⟩
      split at ok
      · rename_i same
        obtain ⟨rfl, rfl⟩ := StoreAction.pure_ok.mp ok
        exact ⟨write, .inl ⟨same, rfl⟩⟩
      · rename_i other
        obtain ⟨index, _, checked, ok⟩ := StoreAction.bind_ok.mp ok
        obtain ⟨indexed, rfl⟩ := StoreAction.check_ok.mp checked
        obtain ⟨rfl, rfl⟩ := StoreAction.pure_ok.mp ok
        exact ⟨write, .inr ⟨other, index, indexed, rfl⟩⟩

end Store

end CodeSearch
