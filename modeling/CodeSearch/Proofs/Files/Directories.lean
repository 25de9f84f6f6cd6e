import CodeSearch.Proofs.Files.Parts

/-! # Making directories

Once directories were made as far as possible, making them again changes nothing, whether
all of them could be made or not.
-/

namespace CodeSearch

namespace FileSystem

variable {fs after : FileSystem} {follow : Bool} {p up : Path} {q : Place}

theorem locate_ok :
    fs.locate follow p = .ok q ↔ p.Spelled ∧
      resolve fs follow linkLimit (origin fs.here p).1 (origin fs.here p).2 = .ok q := by
  unfold locate Path.Spelled
  by_cases nul : '\x00' ∈ p.toText.toList
  · simp [nul]
  · by_cases none : p.toText = ""
    · simp [none]
    · by_cases long : pathLimit ≤ p.toText.utf8ByteSize
      · simp [nul, none, long]
      · simp [nul, none, long]

theorem entry?_ok {e : Entry} :
    fs.entry? p = .ok e ↔ ∃ q, fs.locate true p = .ok q ∧ fs.get? q = some e := by
  unfold entry?
  cases located : fs.locate true p with
  | error e => simp [Except.bind]
  | ok q => cases there : fs.get? q <;> simp [there, Except.bind]

theorem origin_is_directory (sound : fs.Sound) (p : Path) :
    fs.get? (origin fs.here p).1 = some .directory := origin_directory sound.here p

theorem isDirectory_iff (sound : fs.Sound) :
    fs.isDirectory p = true ↔ p.Spelled ∧ ∃ m q,
      fs.Enters linkLimit (origin fs.here p).1 (origin fs.here p).2 m q := by
  constructor
  · intro h
    unfold isDirectory at h
    split at h
    · rename_i found
      obtain ⟨q, located, there⟩ := entry?_ok.mp found
      obtain ⟨spelled, resolved⟩ := locate_ok.mp located
      obtain ⟨m, way⟩ := (leads_of_resolve resolved).enters_of_directory (.refl fs) there
      exact ⟨spelled, m, q, way⟩
    · cases h
  · rintro ⟨spelled, m, q, way⟩
    have resolved : resolve fs true linkLimit (origin fs.here p).1 ((origin fs.here p).2 ++ []) =
        resolve fs true m q [] := way.resolve_append (.inr rfl)
    rw [List.append_nil, resolve_nil] at resolved
    have located := locate_ok.mpr ⟨spelled, resolved⟩
    have there := way.directory sound (origin_is_directory sound p)
    rw [isDirectory, entry?_ok.mpr ⟨q, located, there⟩]

theorem makeDirectory_eq (bare : p.slashless = p) :
    fs.makeDirectory p = (fs.locate false p).bind fun place =>
      match fs.get? place with
      | some _ => .error .present
      | none => .ok (fs.set place .directory) := by
  change (fs.locate false p.slashless).bind _ = _
  rewrite [bare]
  rfl

theorem makeDirectory_ok (bare : p.slashless = p) (made : fs.makeDirectory p = .ok after) :
    ∃ q, fs.locate false p = .ok q ∧ fs.get? q = none ∧ after = fs.set q .directory := by
  rw [makeDirectory_eq bare] at made
  cases located : fs.locate false p with
  | error e => simp [located, Except.bind] at made
  | ok q =>
    cases there : fs.get? q with
    | some e => simp [located, there, Except.bind] at made
    | none =>
      refine ⟨q, rfl, there, ?_⟩
      simp only [located, there, Except.bind] at made
      exact (Except.ok.inj made).symm

/-- A directory that is there stays as it is. -/
theorem ensureDirectory_of_isDirectory (sound : fs.Sound) (bare : p.slashless = p)
    (h : fs.isDirectory p = true) : fs.ensureDirectory p = .ok fs := by
  obtain ⟨spelled, m, q, way⟩ := (isDirectory_iff sound).mp h
  unfold ensureDirectory
  cases made : fs.makeDirectory p with
  | error e => simp [h]
  | ok after =>
    obtain ⟨r, located, missing, -⟩ := makeDirectory_ok bare made
    obtain ⟨r', resolved, there⟩ := way.exists_resolve sound (origin_is_directory sound p)
    have same : r = r' := Except.ok.inj (located.symm.trans (locate_ok.mpr ⟨spelled, resolved⟩))
    simp [← same, missing] at there

/-- What has been made is a directory. -/
theorem ensureDirectory_ok (sound : fs.Sound) (bare : p.slashless = p)
    (ok : fs.ensureDirectory p = .ok after) :
    after.Sound ∧ Grows fs after ∧ after.isDirectory p = true := by
  unfold ensureDirectory at ok
  cases made : fs.makeDirectory p with
  | error e =>
    simp only [made] at ok
    split at ok
    · rename_i there
      obtain rfl := Except.ok.inj ok
      exact ⟨sound, .refl fs, there⟩
    · cases ok
  | ok made' =>
    simp only [made] at ok
    obtain rfl := Except.ok.inj ok
    obtain ⟨q, located, missing, rfl⟩ := makeDirectory_ok bare made
    obtain ⟨spelled, resolved⟩ := locate_ok.mp located
    have leads := leads_of_resolve resolved
    have absent : fs.get? q ≠ some .directory := by simp [missing]
    have into := leads.parent sound (origin_is_directory sound p)
    have sound' : (fs.set q .directory).Sound := sound.set absent into .directory
    have grows : Grows fs (fs.set q .directory) := grows_set absent (by simp [missing]) .directory
    have away : q ≠ [] := (ne_of_get? absent get?_root).symm
    have there : (fs.set q .directory).get? q = some .directory := by simp [get?_set away]
    obtain ⟨m, way⟩ := leads.enters_of_directory grows there
    exact ⟨sound', grows, (isDirectory_iff sound').mpr ⟨spelled, m, q, way⟩⟩

/-- A directory that can be made has a parent that is one, unless its text is empty. -/
theorem isDirectory_parent (sound : fs.Sound) {dirs : List String} {last : String}
    (body : Path.trimEnd p.body = dirs ++ [last])
    (filled : (Path.build p.lead (Path.trimEnd dirs)).toText ≠ "")
    (located : fs.locate follow p = .ok q) :
    fs.isDirectory (Path.build p.lead (Path.trimEnd dirs)) = true := by
  obtain ⟨spelled, resolved⟩ := locate_ok.mp located
  obtain ⟨idles, -, whole⟩ := Path.trimEnd_append p.body
  have pieces : (origin fs.here p).2 = (p.lead.dots ++ dirs) ++ ([last] ++ idles) := by
    rw [Path.origin_eq]
    change p.lead.dots ++ p.body = _
    rw [whole, body]
    simp
  have leads := leads_of_resolve resolved
  rw [pieces] at leads
  obtain ⟨m, r, way⟩ := leads.enters (by simp)
  rw [Path.origin_eq] at way
  exact (isDirectory_iff sound).mpr
    ⟨spelled.parent body filled, m, r, (Path.enters_parent body filled).mpr way⟩

theorem exists_locate_of_ensureDirectory (bare : p.slashless = p)
    (ok : fs.ensureDirectory p = .ok after) : ∃ follow q, fs.locate follow p = .ok q := by
  unfold ensureDirectory at ok
  cases made : fs.makeDirectory p with
  | ok made' =>
    obtain ⟨q, located, -⟩ := makeDirectory_ok bare made
    exact ⟨false, q, located⟩
  | error e =>
    simp only [made] at ok
    split at ok
    · rename_i there
      unfold isDirectory entry? at there
      cases located : fs.locate true p with
      | ok q => exact ⟨true, q, located⟩
      | error e => simp [located, Except.bind] at there
    · cases ok

theorem makeDirectoriesFrom_of_isDirectory (sound : fs.Sound) (bare : p.slashless = p)
    (h : p.toText = "" ∨ fs.isDirectory p = true) (fuel : Nat) :
    fs.makeDirectoriesFrom (fuel + 1) p = (.ok (), fs) := by
  unfold makeDirectoriesFrom
  by_cases none : p.toText = ""
  · rw [if_pos none]
  · rw [if_neg none, ensureDirectory_of_isDirectory sound bare (h.resolve_left none)]

theorem makeDirectoriesFrom_of_error {fuel : Nat} {e : FileError} (filled : p.toText ≠ "")
    (failed : fs.ensureDirectory p = .error e) (other : e ≠ .missing) :
    fs.makeDirectoriesFrom (fuel + 1) p = (.error e, fs) := by
  unfold makeDirectoriesFrom
  rw [if_neg filled, failed]
  cases e with
  | missing => exact absurd rfl other
  | _ => rfl

theorem makeDirectoriesFrom_of_missing {fuel : Nat} (filled : p.toText ≠ "")
    (failed : fs.ensureDirectory p = .error .missing) :
    fs.makeDirectoriesFrom (fuel + 1) p =
      match p.parent? with
      | none => (.error .missing, fs)
      | some up =>
        match fs.makeDirectoriesFrom fuel up with
        | (.error e, after) => (.error e, after)
        | (.ok _, after) =>
          match after.ensureDirectory p with
          | .ok made => (.ok (), made)
          | .error e => (.error e, after) := by
  rewrite [makeDirectoriesFrom, if_neg filled, failed]
  rfl

/-- What is left after directories were made: making them again changes nothing. -/
structure Settled (fuel : Nat) (p : Path) (fs after : FileSystem) (r : Except FileError Unit) :
    Prop where
  sound : after.Sound
  grows : Grows fs after
  there : r = .ok () → p.toText = "" ∨ after.isDirectory p = true
  again : (after.makeDirectoriesFrom fuel p).2 = after
  failed : r ≠ .ok () → (after.makeDirectoriesFrom fuel p).1 ≠ .ok ()

theorem settled_of_failure {fuel : Nat} {e e' : FileError} (sound : after.Sound)
    (grows : Grows fs after) (again : after.makeDirectoriesFrom fuel p = (.error e', after)) :
    Settled fuel p fs after (.error e) :=
  ⟨sound, grows, nofun, by rw [again], fun _ => by rw [again]; exact nofun⟩

theorem settled_of_there {fuel : Nat} (sound : after.Sound) (grows : Grows fs after)
    (bare : p.slashless = p) (there : p.toText = "" ∨ after.isDirectory p = true) :
    Settled (fuel + 1) p fs after (.ok ()) :=
  ⟨sound, grows, fun _ => there,
    by rw [makeDirectoriesFrom_of_isDirectory sound bare there], fun h => absurd rfl h⟩

/-- If a parent cannot be made, neither can the directory. -/
theorem ensureDirectory_ne_ok {fuel : Nat} {e : FileError} {made mid : FileSystem}
    (parent : p.parent? = some up) (bare : p.slashless = p)
    (run : fs.makeDirectoriesFrom fuel up = (.error e, mid))
    (failed : fs.ensureDirectory p ≠ .ok made)
    (ih : Settled fuel up fs mid (.error e)) : mid.ensureDirectory p ≠ .ok made := by
  intro ok
  cases fuel with
  | zero =>
    obtain ⟨-, rfl⟩ := Prod.mk.inj run
    exact failed ok
  | succ fuel =>
    have filled : up.toText ≠ "" := by
      intro none
      rw [makeDirectoriesFrom, if_pos none] at run
      cases run
    obtain ⟨follow, q, located⟩ := exists_locate_of_ensureDirectory bare ok
    rcases Path.parent?_cases parent with ⟨dirs, last, body, rfl⟩ | rfl
    · have there := isDirectory_parent ih.sound body filled located
      refine ih.failed nofun ?_
      rw [makeDirectoriesFrom_of_isDirectory ih.sound Path.slashless_build (.inr there)]
    · exact filled rfl

/-- Once its parent is settled, a directory that cannot be made changes nothing. -/
theorem makeDirectoriesFrom_of_refused {fuel : Nat} {r : Except FileError Unit} {e : FileError}
    {mid : FileSystem} (filled : p.toText ≠ "") (parent : p.parent? = some up)
    (before : Settled fuel up fs mid r) (refused : mid.ensureDirectory p = .error e) :
    ∃ e', mid.makeDirectoriesFrom (fuel + 1) p = (.error e', mid) := by
  by_cases other : e = .missing
  · subst other
    rw [makeDirectoriesFrom_of_missing filled refused, parent]
    rcases twice : mid.makeDirectoriesFrom fuel up with ⟨e' | _, mid'⟩
    · obtain rfl : mid' = mid := by simpa [twice] using before.again
      exact ⟨e', by simp only [twice]⟩
    · obtain rfl : mid' = mid := by simpa [twice] using before.again
      exact ⟨.missing, by simp only [twice, refused]⟩
  · exact ⟨e, makeDirectoriesFrom_of_error filled refused other⟩

theorem settled_of_missing {fuel : Nat} {r : Except FileError Unit} (sound : fs.Sound)
    (bare : p.slashless = p) (filled : p.toText ≠ "")
    (ensured : fs.ensureDirectory p = .error .missing)
    (ih : ∀ {fs after : FileSystem} {up : Path} {r : Except FileError Unit}, fs.Sound →
      up.slashless = up → fs.makeDirectoriesFrom fuel up = (r, after) → Settled fuel up fs after r)
    (run : fs.makeDirectoriesFrom (fuel + 1) p = (r, after)) :
    Settled (fuel + 1) p fs after r := by
  have whole := run
  rw [makeDirectoriesFrom_of_missing filled ensured] at run
  cases parent : p.parent? with
  | none =>
    simp only [parent] at run
    obtain ⟨rfl, rfl⟩ := Prod.mk.inj run
    exact settled_of_failure sound (.refl _) whole
  | some up =>
    rcases made : fs.makeDirectoriesFrom fuel up with ⟨made', mid⟩
    have before := ih sound (Path.slashless_parent parent) made
    simp only [parent, made] at run
    cases made' with
    | error e =>
      obtain ⟨rfl, rfl⟩ := Prod.mk.inj run
      cases again : mid.ensureDirectory p with
      | ok x =>
        have failed : fs.ensureDirectory p ≠ .ok x := by
          rw [ensured]
          exact nofun
        exact absurd again (ensureDirectory_ne_ok parent bare made failed before)
      | error e' =>
        obtain ⟨e'', same⟩ := makeDirectoriesFrom_of_refused filled parent before again
        exact settled_of_failure before.sound before.grows same
    | ok _ =>
      cases again : mid.ensureDirectory p with
      | ok x =>
        simp only [again] at run
        obtain ⟨rfl, rfl⟩ := Prod.mk.inj run
        obtain ⟨sound', grows, there⟩ := ensureDirectory_ok before.sound bare again
        exact settled_of_there sound' (before.grows.trans grows) bare (.inr there)
      | error e' =>
        simp only [again] at run
        obtain ⟨rfl, rfl⟩ := Prod.mk.inj run
        obtain ⟨e'', same⟩ := makeDirectoriesFrom_of_refused filled parent before again
        exact settled_of_failure before.sound before.grows same

theorem settled (fuel : Nat) {r : Except FileError Unit} (sound : fs.Sound) (bare : p.slashless = p)
    (run : fs.makeDirectoriesFrom fuel p = (r, after)) : Settled fuel p fs after r := by
  induction fuel generalizing fs p r after with
  | zero =>
    obtain ⟨rfl, rfl⟩ := Prod.mk.inj run
    exact settled_of_failure sound (.refl _) rfl
  | succ fuel ih =>
    by_cases none : p.toText = ""
    · rw [makeDirectoriesFrom, if_pos none] at run
      obtain ⟨rfl, rfl⟩ := Prod.mk.inj run
      exact settled_of_there sound (.refl _) bare (.inl none)
    · cases ensured : fs.ensureDirectory p with
      | ok made =>
        rw [makeDirectoriesFrom, if_neg none, ensured] at run
        obtain ⟨rfl, rfl⟩ := Prod.mk.inj run
        obtain ⟨sound', grows, there⟩ := ensureDirectory_ok sound bare ensured
        exact settled_of_there sound' grows bare (.inr there)
      | error e =>
        by_cases other : e = .missing
        · subst other
          exact settled_of_missing sound bare none ensured ih run
        · have same : fs.makeDirectoriesFrom (fuel + 1) p = (.error e, fs) :=
            makeDirectoriesFrom_of_error none ensured other
          obtain ⟨rfl, rfl⟩ := Prod.mk.inj (same.symm.trans run)
          exact settled_of_failure sound (.refl _) same

end FileSystem

end CodeSearch
