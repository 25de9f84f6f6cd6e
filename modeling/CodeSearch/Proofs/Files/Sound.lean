import Mathlib.Data.List.Induction
import CodeSearch.Proofs.Files.Enter

/-! # Sound file systems

In a sound file system whatever is there is in a directory, and so is the place that paths
start from. A path that can be followed then leads into a directory.
-/

namespace CodeSearch

namespace FileSystem

variable {fs : FileSystem} {follow : Bool} {n m : Nat} {base p q r : Place} {ps : List String}

/-- Whatever is there is in a directory. -/
structure Sound (fs : FileSystem) : Prop where
  here : fs.get? fs.here = some .directory
  parent : ∀ q e, fs.get? q = some e → fs.get? q.dropLast = some .directory

theorem get?_root : fs.get? [] = some .directory := rfl

/-- What is below a place is below a directory. -/
theorem Sound.directory_of_below (sound : fs.Sound) {names : List String} {e : Entry}
    (below : names ≠ []) (h : fs.get? (q ++ names) = some e) : fs.get? q = some .directory := by
  induction names using List.reverseRecOn generalizing e with
  | nil => exact absurd rfl below
  | append_singleton names s ih =>
    have up := sound.parent _ _ h
    rw [← List.append_assoc, List.dropLast_concat] at up
    rcases names with _ | ⟨s', names⟩
    · rwa [List.append_nil] at up
    · exact ih (by simp) up

theorem origin_directory (h : fs.get? base = some .directory) (target : Path) :
    fs.get? (origin base target).1 = some .directory := by
  unfold origin
  split
  · exact get?_root
  · exact h

theorem Enters.directory (sound : fs.Sound) (h : Enters fs n base ps m q)
    (start : fs.get? base = some .directory) : fs.get? q = some .directory := by
  induction h with
  | nil => exact start
  | idle _ _ ih => exact ih start
  | up _ _ ih => exact ih (sound.parent _ _ start)
  | down _ _ here _ ih => exact ih here
  | jump _ _ _ _ ih => exact ih (origin_directory start _)

/-- A path leads into a directory. -/
theorem Leads.parent (sound : fs.Sound) (h : Leads fs follow n base ps r)
    (start : fs.get? base = some .directory) : fs.get? r.dropLast = some .directory := by
  induction h with
  | nil => exact sound.parent _ _ start
  | idle _ _ ih => exact ih start
  | up _ _ ih => exact ih (sound.parent _ _ start)
  | down _ _ here _ ih => exact ih here
  | jump _ _ _ _ ih => exact ih (origin_directory start _)
  | stop => rwa [List.dropLast_concat]

/-- If links are followed only up to the last piece, something is still there. -/
theorem Enters.exists_resolve (sound : fs.Sound) (h : Enters fs n base ps m q)
    (start : fs.get? base = some .directory) :
    ∃ r, resolve fs false n base ps = .ok r ∧ (fs.get? r).isSome := by
  induction h with
  | nil n base => exact ⟨base, resolve_nil, by simp [start]⟩
  | idle h _ ih =>
    rw [resolve_idle h]
    exact ih start
  | up h _ ih =>
    rw [resolve_up h]
    exact ih (sound.parent _ _ start)
  | down h short here _ ih =>
    rw [resolve_name h, if_neg short, here]
    exact ih here
  | jump h short here _ ih =>
    rw [resolve_name h, if_neg short, here]
    dsimp only
    split
    · exact ⟨_, rfl, by simp [here]⟩
    · exact ih (origin_directory start _)

/-! ## Changes -/

theorem ne_of_get? (h : fs.get? q ≠ some .directory) (hp : fs.get? p = some .directory) :
    p ≠ q := by
  rintro rfl
  exact h hp

theorem ne_of_link {t : Path} (plain : ∀ t, fs.get? q ≠ some (.link t))
    (hp : fs.get? p = some (.link t)) : p ≠ q := by
  rintro rfl
  exact plain t hp

theorem grows_set (h : fs.get? q ≠ some .directory) (plain : ∀ t, fs.get? q ≠ some (.link t))
    (e : Entry) : Grows fs (fs.set q e) := by
  have away : q ≠ [] := fun root => h (root ▸ get?_root)
  refine ⟨rfl, fun p hp => ?_, fun p t hp => ?_⟩
  · rw [get?_set away, if_neg (ne_of_get? h hp)]
    exact hp
  · rw [get?_set away, if_neg (ne_of_link plain hp)]
    exact hp

/-- What is put into a directory, and not over one, leaves a file system sound. -/
theorem Sound.set (sound : fs.Sound) (h : fs.get? q ≠ some .directory)
    (into : fs.get? q.dropLast = some .directory) (e : Entry) : (fs.set q e).Sound := by
  have away : q ≠ [] := fun root => h (root ▸ get?_root)
  refine ⟨?_, fun p e' hp => ?_⟩
  · change (fs.set q e).get? fs.here = _
    rw [get?_set away, if_neg (ne_of_get? h sound.here)]
    exact sound.here
  · have up : fs.get? p.dropLast = some .directory := by
      rw [get?_set away] at hp
      split at hp
      · rename_i same
        rw [same]
        exact into
      · exact sound.parent _ _ hp
    rw [get?_set away, if_neg (ne_of_get? h up)]
    exact up

theorem find?_filter_below (q : Place) (es : List (Place × Entry)) :
    find? p (es.filter fun entry => !q.isPrefixOf entry.1) =
      if q.isPrefixOf p then none else find? p es := by
  induction es with
  | nil => simp [find?]
  | cons e es ih =>
    rw [List.filter_cons]
    split
    · rename_i stays
      simp only [find?, ih]
      split
      · rename_i same
        subst same
        simp only [Bool.not_eq_eq_eq_not] at stays
        simp [stays]
      · rfl
    · rename_i goes
      rw [ih]
      split
      · rfl
      · rename_i apart
        have other : e.1 ≠ p := fun same => apart (by simpa [same] using goes)
        simp [find?, other]

/-- What is erased is no directory, so nothing else goes. -/
theorem get?_erase (sound : fs.Sound) (h : fs.get? q ≠ some .directory) (p : Place) :
    (fs.erase q).get? p = if p = q then none else fs.get? p := by
  have away : q ≠ [] := fun root => h (root ▸ get?_root)
  by_cases root : p = []
  · subst root
    rw [if_neg (Ne.symm away)]
    rfl
  · simp only [get?, root, if_false, erase, find?_filter_below]
    by_cases same : p = q
    · simp [same]
    · rw [if_neg same]
      split
      · rename_i below
        obtain ⟨names, rfl⟩ := List.isPrefixOf_iff_prefix.mp below
        have deeper : names ≠ [] := fun none => same (by rw [none, List.append_nil])
        cases there : find? (q ++ names) fs.entries with
        | none => rfl
        | some e =>
          have kept : fs.get? (q ++ names) = some e := by simp [get?, root, there]
          exact absurd (sound.directory_of_below deeper kept) h
      · rfl

theorem Sound.erase (sound : fs.Sound) (h : fs.get? q ≠ some .directory) : (fs.erase q).Sound := by
  refine ⟨?_, fun p e hp => ?_⟩
  · change (fs.erase q).get? fs.here = _
    rw [get?_erase sound h, if_neg (ne_of_get? h sound.here)]
    exact sound.here
  · rw [get?_erase sound h] at hp
    split at hp
    · cases hp
    · have up := sound.parent _ _ hp
      rw [get?_erase sound h, if_neg (ne_of_get? h up)]
      exact up

end FileSystem

end CodeSearch
