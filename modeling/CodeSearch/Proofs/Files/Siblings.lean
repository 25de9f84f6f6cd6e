import CodeSearch.Proofs.Files.Directories

/-! # Files beside one another

A path with a file name and the same path with another extension lead to two names in one
directory. What is done to one of them changes nothing at the other.
-/

namespace CodeSearch

namespace Path

/-- A file name with another extension. -/
def renamed (name ext : String) : String := (cut name).1 ++ "." ++ ext

/-- A file name is cut nowhere or at its last dot. -/
theorem cut_cases (name : String) :
    ((cut name).1 = name ∧ (cut name).2 = none) ∨
      ∃ ext, (cut name).2 = some ext ∧ name = (cut name).1 ++ "." ++ ext ∧ '.' ∉ ext.toList := by
  have whole : name.toList.reverse = name.toList.reverse.takeWhile (· ≠ '.') ++
      name.toList.reverse.dropWhile (· ≠ '.') := (List.takeWhile_append_dropWhile ..).symm
  unfold cut
  dsimp only
  cases behind : name.toList.reverse.dropWhile (· ≠ '.') with
  | nil => exact .inl ⟨rfl, rfl⟩
  | cons dot stem =>
    dsimp only
    split
    · exact .inl ⟨rfl, rfl⟩
    · right
      have isDot : dot = '.' := by
        have head := List.head?_dropWhile_not (· ≠ '.') name.toList.reverse
        rw [behind] at head
        simpa using head
      refine ⟨String.ofList (name.toList.reverse.takeWhile (· ≠ '.')).reverse, rfl, ?_, ?_⟩
      · rw [behind, isDot] at whole
        generalize name.toList.reverse.takeWhile _ = ext at whole ⊢
        have chars := congrArg List.reverse whole
        rw [List.reverse_reverse] at chars
        apply String.toList_inj.mp
        rw [chars]
        simp
      · intro inside
        rw [String.toList_ofList, List.mem_reverse] at inside
        simpa using List.all_eq_true.mp List.all_takeWhile '.' inside

theorem renamed_injective {name ext ext' : String} (h : renamed name ext = renamed name ext') :
    ext = ext' := by
  unfold renamed at h
  have chars := congrArg String.toList h
  simp only [String.toList_append, List.append_cancel_left_eq] at chars
  exact String.toList_inj.mp chars

theorem extension?_ne {p : Path} {ext : String} (dotted : '.' ∈ ext.toList) :
    p.extension? ≠ some ext := by
  intro same
  obtain ⟨name, -, behind⟩ := Option.bind_eq_some_iff.mp same
  rcases cut_cases name with ⟨-, none⟩ | ⟨own, cut, -, clear⟩
  · exact absurd (none.symm.trans behind) nofun
  · exact clear (Option.some.inj (cut.symm.trans behind) ▸ dotted)

theorem renamed_ne {name ext : String} (other : (cut name).2 ≠ some ext) :
    renamed name ext ≠ name := by
  intro same
  rcases cut_cases name with ⟨uncut, -⟩ | ⟨own, cut, parts, -⟩
  · have length := congrArg String.length same
    rw [renamed, uncut] at length
    simp only [String.length_append] at length
    have dot : ".".length = 1 := rfl
    omega
  · have extended : renamed name ext = renamed name own := same.trans parts
    exact other (cut.trans (congrArg some (renamed_injective extended).symm))

theorem step?_renamed {name ext : String} (long : 2 ≤ ext.length) :
    step? (renamed name ext) = some (.name (renamed name ext)) := by
  have length : 3 ≤ (renamed name ext).length := by
    simp only [renamed, String.length_append]
    change 3 ≤ _ + 1 + _
    omega
  have other : ∀ s : String, s.length < 3 → renamed name ext ≠ s := by
    intro s short same
    rw [same] at length
    omega
  simp [step?, isIdle, other "" (by decide), other "." (by decide), other ".." (by decide)]

end Path

namespace FileSystem

variable {fs fs' after : FileSystem} {n m : Nat} {base q r : Place}
variable {ps : List String} {p : Path}

theorem resolve_of_leads (h : Leads fs true n base ps r) : resolve fs true n base ps = .ok r := by
  induction h with
  | nil => exact resolve_nil
  | idle h _ ih => rwa [resolve_idle h]
  | up h _ ih => rwa [resolve_up h]
  | down h short here _ ih => rwa [resolve_name h, if_neg short, here]
  | jump h short here _ ih =>
    rw [resolve_name h, if_neg short, here]
    simpa [hop] using ih
  | stop h short here still =>
    rw [resolve_name h, if_neg short]
    split
    · simp
    · simp
    · rename_i there
      exact absurd there here
    · rename_i there
      exact absurd (still _ there) (by decide)

/-- A path still leads to what is no directory and no link. -/
theorem Leads.grow (grows : Grows fs fs') (file : fs'.get? r ≠ some .directory)
    (plain : ∀ t, fs'.get? r ≠ some (.link t)) (h : Leads fs true n base ps r) :
    Leads fs' true n base ps r := by
  induction h with
  | nil n base => exact .nil n base
  | idle h _ ih => exact .idle h (ih file plain)
  | up h _ ih => exact .up h (ih file plain)
  | down h short here _ ih => exact .down h short (grows.directory _ here) (ih file plain)
  | jump h short here _ ih => exact .jump h short (grows.link _ _ here) (ih file plain)
  | stop h short _ _ => exact .stop h short file fun t there => absurd there (plain t)

theorem isDirectory_grow (sound : fs.Sound) (sound' : fs'.Sound) (grows : Grows fs fs')
    (h : fs.isDirectory p = true) : fs'.isDirectory p = true := by
  obtain ⟨spelled, m, q, way⟩ := (isDirectory_iff sound).mp h
  refine (isDirectory_iff sound').mpr ⟨spelled, m, q, ?_⟩
  rw [grows.here]
  exact way.grow grows

/-- The directory that a path leads into is there. -/
def HasParent (fs : FileSystem) (p : Path) : Prop :=
  ∀ up, p.parent? = some up → up.toText = "" ∨ fs.isDirectory up = true

theorem HasParent.grow (sound : fs.Sound) (sound' : fs'.Sound) (grows : Grows fs fs')
    (there : fs.HasParent p) : fs'.HasParent p := by
  intro up above
  rcases there up above with empty | directory
  · exact .inl empty
  · exact .inr (isDirectory_grow sound sound' grows directory)

/-- A file that was opened is there when it is opened again. -/
theorem touch_ok (sound : fs.Sound) (ok : fs.touch p = .ok after) :
    after.Sound ∧ Grows fs after ∧ after.touch p = .ok after := by
  unfold touch at ok
  cases located : fs.locate true p with
  | error e => simp [located, Except.bind] at ok
  | ok q =>
    obtain ⟨spelled, resolved⟩ := locate_ok.mp located
    have leads := leads_of_resolve resolved
    simp only [located, Except.bind] at ok
    cases there : fs.get? q with
    | some e =>
      have same := ok
      rw [there] at ok
      cases e with
      | directory => cases ok
      | _ =>
        obtain rfl := Except.ok.inj ok
        refine ⟨sound, .refl fs, ?_⟩
        rw [touch, located]
        exact same
    | none =>
      rw [there] at ok
      obtain rfl := Except.ok.inj ok
      have absent : fs.get? q ≠ some .directory := by simp [there]
      have grows : Grows fs (fs.set q (.file [])) := grows_set absent (by simp [there]) _
      have into := leads.parent sound (origin_is_directory sound p)
      have away : q ≠ [] := (ne_of_get? absent get?_root).symm
      have now : (fs.set q (.file [])).get? q = some (.file []) := by simp [get?_set away]
      have again : (fs.set q (.file [])).locate true p = .ok q :=
        locate_ok.mpr ⟨spelled, resolve_of_leads (leads.grow grows (by simp [now]) (by simp [now]))⟩
      refine ⟨sound.set absent into _, grows, ?_⟩
      simp [touch, again, now, Except.bind]

end FileSystem

end CodeSearch
