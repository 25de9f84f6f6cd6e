import CodeSearch.Proofs.Files.Siblings

/-! # Ways and links that change

A way stays while directories do and the links that it goes through do. A link that leads
back to its own directory leads to directories only, so where something else is found behind
a link, the way there does not go through it.
-/

namespace CodeSearch

namespace FileSystem

variable {fs fs' after : FileSystem} {follow : Bool} {n m k j : Nat} {base q r : Place}
variable {ps qs : List String} {p : Path} {s : String} {t : Path}

theorem Enters.le (h : Enters fs n base ps m q) : m ≤ n := by
  induction h with
  | nil => exact Nat.le_refl _
  | jump _ _ _ _ ih => exact Nat.le_succ_of_le ih
  | _ => assumption

/-- With fewer links to follow a way leads to the same place, if it leads anywhere. -/
theorem Enters.resolve_of_le (h : Enters fs n base ps m q) (le : j ≤ n) :
    resolve fs true j base ps = .ok q ∨ resolve fs true j base ps = .error .linkLoop := by
  induction h generalizing j with
  | nil => exact .inl resolve_nil
  | idle h _ ih =>
    rw [resolve_idle h]
    exact ih le
  | up h _ ih =>
    rw [resolve_up h]
    exact ih le
  | down h short here _ ih =>
    rw [resolve_name h, if_neg short, here]
    exact ih le
  | jump h short here _ ih =>
    rw [resolve_name h, if_neg short, here]
    cases j with
    | zero =>
      right
      simp [hop]
    | succ j => simpa [hop] using ih (Nat.le_of_succ_le_succ le)

/-- A way goes through one of the links that change, or it stays. -/
theorem Enters.keep (changed : Place → Prop)
    (directories : ∀ p, fs.get? p = some .directory → fs'.get? p = some .directory)
    (links : ∀ p t, ¬changed p → fs.get? p = some (.link t) → fs'.get? p = some (.link t))
    (h : Enters fs n base ps m q) :
    Enters fs' n base ps m q ∨ ∃ x t k qs, changed x ∧ fs.get? x = some (.link t) ∧ m ≤ k ∧
      Enters fs k (origin x.dropLast t).1 ((origin x.dropLast t).2 ++ qs) m q := by
  induction h with
  | nil n base => exact .inl (.nil n base)
  | idle h _ ih =>
    rcases ih with way | detour
    · exact .inl (.idle h way)
    · exact .inr detour
  | up h _ ih =>
    rcases ih with way | detour
    · exact .inl (.up h way)
    · exact .inr detour
  | down h short here _ ih =>
    rcases ih with way | detour
    · exact .inl (.down h short (directories _ here) way)
    · exact .inr detour
  | @jump n m base q _ s ps t h short here rest ih =>
    by_cases other : changed (base ++ [s])
    · refine .inr ⟨base ++ [s], t, n, ps, other, here, rest.le, ?_⟩
      rwa [List.dropLast_concat]
    · rcases ih with way | detour
      · exact .inl (.jump h short (links _ _ other here) way)
      · exact .inr detour

/-- A link on the way to its own directory leads to a directory or nowhere. -/
theorem resolve_of_detour (sound : fs.Sound) (start : fs.get? q = some .directory)
    (step : Path.step? s = some (.name s)) (there : fs.get? (q ++ [s]) = some (.link t))
    (le : m ≤ k) (detour : Enters fs k (origin q t).1 ((origin q t).2 ++ qs) m q) :
    (∃ r, resolve fs true m q [s] = .ok r ∧ fs.get? r = some .directory) ∨
      resolve fs true m q [s] = .error .linkLoop ∨
        resolve fs true m q [s] = .error .nameTooLong := by
  obtain ⟨k', r, way, -⟩ := detour.split
  rw [resolve_name step]
  split
  · exact .inr (.inr rfl)
  · simp only [there, List.append_nil, List.isEmpty_nil, Bool.not_true, Bool.and_false,
      Bool.false_eq_true, if_false]
    cases m with
    | zero => exact .inr (.inl rfl)
    | succ m =>
      rcases way.resolve_of_le (Nat.le_of_succ_le le) with found | loop
      · exact .inl ⟨r, found, way.directory sound (origin_directory start t)⟩
      · exact .inr (.inl loop)

/-- What is found behind links is no link. -/
theorem Leads.no_link (sound : fs.Sound) (h : Leads fs true n base ps r)
    (start : fs.get? base = some .directory) (t : Path) : fs.get? r ≠ some (.link t) := by
  induction h with
  | nil => simp [start]
  | idle _ _ ih => exact ih start
  | up _ _ ih => exact ih (sound.parent _ _ start)
  | down _ _ here _ ih => exact ih here
  | jump _ _ _ _ ih => exact ih (origin_directory start _)
  | stop _ _ _ still =>
    intro there
    exact absurd (still t there) (by decide)

theorem resolve_idles (idle : ∀ piece ∈ ps, Path.step? piece = none) :
    resolve fs follow n base ps = .ok base := by
  induction ps with
  | nil => exact resolve_nil
  | cons piece ps ih =>
    rw [resolve_idle (idle piece List.mem_cons_self)]
    exact ih fun p hp => idle p (List.mem_cons_of_mem _ hp)

/-- Only a directory is found where more pieces follow, even if they are no steps. -/
theorem directory_of_idles (sound : fs.Sound) (start : fs.get? base = some .directory)
    (idle : ∀ piece ∈ qs, Path.step? piece = none) (more : qs ≠ [])
    (h : resolve fs follow n base (ps ++ qs) = .ok r) : fs.get? r = some .directory := by
  obtain ⟨m, q, way⟩ := (leads_of_resolve h).enters more
  rw [way.resolve_append (.inl more), resolve_idles idle] at h
  exact Except.ok.inj h ▸ way.directory sound start

/-- A last name that is no link to be followed is where it leads. -/
theorem resolve_unfollowed (step : Path.step? s = some (.name s)) :
    resolve fs false n base [s] =
      if nameLimit < s.utf8ByteSize then .error .nameTooLong else .ok (base ++ [s]) := by
  rw [resolve_name step]
  split
  · rfl
  · split
    · rfl
    · rfl
    · exact resolve_nil
    · rfl

/-! ## Writing and moving -/

theorem set_set (q : Place) (e e' : Entry) : (fs.set q e).set q e' = fs.set q e' := by
  simp [FileSystem.set]

/-- What is found along a path is still found there after a file was put there. -/
theorem write_ok {content : Bytes} (sound : fs.Sound) (ok : fs.write p content = .ok after) :
    ∃ q, fs.locate true p = .ok q ∧ fs.get? q ≠ some .directory ∧
      (∀ t, fs.get? q ≠ some (.link t)) ∧ fs.get? q.dropLast = some .directory ∧
        after = fs.set q (.file content) := by
  unfold write at ok
  cases located : fs.locate true p with
  | error e => simp [located, Except.bind] at ok
  | ok q =>
    have leads := leads_of_resolve (locate_ok.mp located).2
    have start := origin_is_directory sound p
    simp only [located, Except.bind] at ok
    split at ok
    · cases ok
    · rename_i file
      exact ⟨q, rfl, file, leads.no_link sound start, leads.parent sound start,
        (Except.ok.inj ok).symm⟩

/-- A path still leads to a file, whatever is put there. -/
theorem locate_grow (grows : Grows fs fs') (file : fs'.get? q ≠ some .directory)
    (plain : ∀ t, fs'.get? q ≠ some (.link t)) (located : fs.locate true p = .ok q) :
    fs'.locate true p = .ok q := by
  obtain ⟨spelled, resolved⟩ := locate_ok.mp located
  refine locate_ok.mpr ⟨spelled, ?_⟩
  rw [grows.here]
  exact resolve_of_leads ((leads_of_resolve resolved).grow grows file plain)

theorem rename_ok {source : Path} (sound : fs.Sound) (ok : fs.rename source p = .ok after) :
    ∃ old new e, fs.locate false source = .ok old ∧ fs.locate false p = .ok new ∧
      fs.get? old = some e ∧ e ≠ .directory ∧ fs.get? new ≠ some .directory ∧
        fs.get? new.dropLast = some .directory ∧
          after = if old = new then fs else (fs.erase old).set new e := by
  unfold rename at ok
  cases located : fs.locate false source with
  | error e => simp [located, bind, Except.bind] at ok
  | ok old =>
    cases located' : fs.locate false p with
    | error e => simp [located, located', bind, Except.bind] at ok
    | ok new =>
      have leads := leads_of_resolve (locate_ok.mp located').2
      have into := leads.parent sound (origin_is_directory sound p)
      simp only [located, located', bind, Except.bind] at ok
      split at ok
      · cases ok
      · cases ok
      · cases ok
      · rename_i e file there kept
        exact ⟨old, new, e, rfl, rfl, there, file, kept, into, (Except.ok.inj ok).symm⟩

end FileSystem

end CodeSearch
