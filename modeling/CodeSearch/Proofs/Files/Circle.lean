import CodeSearch.Proofs.Files.Detour

/-! # Ways round in a circle

A way behind a link that comes back to the link never ends, whatever is left to follow behind it. So
a link that is moved to another name in its directory leads where it led before, or round in a
circle.
-/

namespace CodeSearch

namespace FileSystem

variable {fs fs' : FileSystem} {follow : Bool} {n : Nat} {start base q old new : Place}
variable {piece s : String} {first ps : List String} {t p : Path} {c : Bytes}

/-- A link is followed. -/
theorem resolve_link (h : Path.step? piece = some (.name s)) (short : ¬nameLimit < s.utf8ByteSize)
    (here : fs.get? (base ++ [s]) = some (.link t)) :
    resolve fs true n base (piece :: ps) =
      hop fs true n (origin base t).1 ((origin base t).2 ++ ps) := by
  rw [resolve_name h, if_neg short, here]
  simp only [Bool.not_true, Bool.and_false, Bool.false_eq_true, if_false]

/-- These pieces come round to a start from which nothing but circles follows. -/
def Circles (fs : FileSystem) (start : Place) (first : List String) (base : Place)
    (ps : List String) : Prop :=
  ∀ j, (∀ i < j, ∀ qs, resolve fs true i start (first ++ qs) = .error .linkLoop) →
    ∀ qs, resolve fs true j base (ps ++ qs) = .error .linkLoop

namespace Circles

theorem idle (h : Path.step? piece = none) (circles : Circles fs start first base ps) :
    Circles fs start first base (piece :: ps) := by
  intro j below qs
  rw [List.cons_append, resolve_idle h]
  exact circles j below qs

theorem up (h : Path.step? piece = some .up) (circles : Circles fs start first base.dropLast ps) :
    Circles fs start first base (piece :: ps) := by
  intro j below qs
  rw [List.cons_append, resolve_up h]
  exact circles j below qs

theorem down (h : Path.step? piece = some (.name s)) (short : ¬nameLimit < s.utf8ByteSize)
    (here : fs.get? (base ++ [s]) = some .directory)
    (circles : Circles fs start first (base ++ [s]) ps) :
    Circles fs start first base (piece :: ps) := by
  intro j below qs
  rw [List.cons_append, resolve_name h, if_neg short, here]
  exact circles j below qs

theorem jump (h : Path.step? piece = some (.name s)) (short : ¬nameLimit < s.utf8ByteSize)
    (here : fs.get? (base ++ [s]) = some (.link t))
    (circles : Circles fs start first (origin base t).1 ((origin base t).2 ++ ps)) :
    Circles fs start first base (piece :: ps) := by
  intro j below qs
  rw [List.cons_append, resolve_link h short here, ← List.append_assoc]
  cases j with
  | zero => rfl
  | succ j => exact circles j (fun i less => below i (Nat.lt_succ_of_lt less)) qs

/-- A link to the start closes the circle. -/
theorem close (h : Path.step? piece = some (.name s)) (short : ¬nameLimit < s.utf8ByteSize)
    (here : fs.get? (base ++ [s]) = some (.link t)) (ps : List String) :
    Circles fs (origin base t).1 (origin base t).2 base (piece :: ps) := by
  intro j below qs
  rw [List.cons_append, resolve_link h short here]
  cases j with
  | zero => rfl
  | succ j => exact below j (Nat.lt_succ_self j) _

/-- A start that comes round to itself leads nowhere, with any number of links. -/
theorem loops (circles : Circles fs start first start first) (j : Nat) (qs : List String) :
    resolve fs true j start (first ++ qs) = .error .linkLoop := by
  induction j using Nat.strongRecOn generalizing qs with
  | _ j ih => exact circles j ih qs

end Circles

/-- A link has another name in the same directory, where no directory was. -/
structure Renames (old new : Place) (t : Path) (fs fs' : FileSystem) : Prop where
  same : ∀ x, x ≠ old → x ≠ new → fs'.get? x = fs.get? x
  was : fs.get? old = some (.link t)
  now : fs'.get? new = some (.link t)
  file : fs.get? new ≠ some .directory
  beside : old.dropLast = new.dropLast

namespace Renames

variable (renames : Renames old new t fs fs')

include renames

theorem directory (here : fs.get? q = some .directory) : fs'.get? q = some .directory := by
  rw [renames.same q, here]
  · rintro rfl
    exact absurd (renames.was.symm.trans here) nofun
  · rintro rfl
    exact renames.file here

/-- A way to a file is still there, or what is left of it comes round to the link: to its new name
now, or to the old one before. -/
theorem leads (sound : fs.Sound) (there : fs.get? q = some (.file c))
    (directory : fs.get? base = some .directory) (h : Leads fs true n base ps q) :
    (resolve fs' true n base ps = .ok q ∧ fs'.get? q = some (.file c)) ∨
      Circles fs' (origin new.dropLast t).1 (origin new.dropLast t).2 base ps ∨
        Circles fs (origin new.dropLast t).1 (origin new.dropLast t).2 base ps := by
  induction h with
  | nil => exact absurd (directory.symm.trans there) nofun
  | idle h _ ih =>
    rw [resolve_idle h]
    exact (ih there directory).imp_right (Or.imp (.idle h) (.idle h))
  | up h _ ih =>
    rw [resolve_up h]
    exact (ih there (sound.parent _ _ directory)).imp_right (Or.imp (.up h) (.up h))
  | down h short here _ ih =>
    have here' := renames.directory here
    rw [resolve_name h, if_neg short, here']
    exact (ih there here).imp_right (Or.imp (.down h short here') (.down h short here))
  | @jump _ base _ _ s ps u h short here _ ih =>
    by_cases isNew : base ++ [s] = new
    · have now := renames.now
      rw [← isNew] at now
      rw [← isNew, List.dropLast_concat]
      exact .inr (.inl (.close h short now ps))
    · by_cases isOld : base ++ [s] = old
      · obtain rfl := Entry.link.inj (Option.some.inj (here.symm.trans (isOld ▸ renames.was)))
        rw [← renames.beside, ← isOld, List.dropLast_concat]
        exact .inr (.inr (.close h short here ps))
      · have here' := (renames.same _ isOld isNew).trans here
        rw [resolve_link h short here']
        exact (ih there (origin_directory directory _)).imp_right
          (Or.imp (.jump h short here') (.jump h short here))
  | @stop _ base _ s h short =>
    by_cases isNew : base ++ [s] = new
    · have now := renames.now
      rw [← isNew] at now
      rw [← isNew, List.dropLast_concat]
      exact .inr (.inl (.close h short now []))
    · have other : base ++ [s] ≠ old := by
        rintro rfl
        exact absurd (renames.was.symm.trans there) nofun
      have there' := (renames.same _ other isNew).trans there
      left
      rw [resolve_name h, if_neg short, there']
      exact ⟨rfl, rfl⟩

/-- A renamed link to a file leads to that file or round in a circle. -/
theorem resolve (sound : fs.Sound) (there : fs.get? q = some (.file c))
    (directory : fs.get? new.dropLast = some .directory)
    (found : FileSystem.resolve fs true n (origin new.dropLast t).1 (origin new.dropLast t).2 =
      .ok q) :
    (FileSystem.resolve fs' true n (origin new.dropLast t).1 (origin new.dropLast t).2 = .ok q ∧
      fs'.get? q = some (.file c)) ∨
        FileSystem.resolve fs' true n (origin new.dropLast t).1 (origin new.dropLast t).2 =
          .error .linkLoop := by
  rcases renames.leads sound there (origin_directory directory t) (leads_of_resolve found) with
    still | circles | circles
  · exact .inl still
  · have loops := circles.loops n []
    rw [List.append_nil] at loops
    exact .inr loops
  · have loops := circles.loops n []
    rw [List.append_nil] at loops
    exact absurd (found.symm.trans loops) nofun

end Renames

/-! ## Circles that stay -/

theorem resolve_loop_of_hops (grows : Grows fs fs')
    (hops : ∀ base ps, hop fs follow n base ps = .error .linkLoop →
      hop fs' follow n base ps = .error .linkLoop)
    (h : resolve fs follow n base ps = .error .linkLoop) :
    resolve fs' follow n base ps = .error .linkLoop := by
  induction ps generalizing base with
  | nil => exact absurd (resolve_nil.symm.trans h) nofun
  | cons p ps ih =>
    rcases step?_cases p with none | up | ⟨s, name⟩
    · rw [resolve_idle none] at h ⊢
      exact ih h
    · rw [resolve_up up] at h ⊢
      exact ih h
    · rw [resolve_name name] at h ⊢
      split at h
      · cases h
      · rename_i short
        rw [if_neg short]
        split at h
        · split at h <;> cases h
        · split at h <;> cases h
        · rename_i here
          rw [grows.directory _ here]
          exact ih h
        · rename_i target here
          rw [grows.link _ _ here]
          split at h
          · cases h
          · rename_i onward
            simp only [onward]
            exact hops _ _ h

/-- A circle stays while directories and links do. -/
theorem resolve_loop_grow (grows : Grows fs fs')
    (h : resolve fs follow n base ps = .error .linkLoop) :
    resolve fs' follow n base ps = .error .linkLoop := by
  induction n generalizing base ps with
  | zero => exact resolve_loop_of_hops grows (fun _ _ _ => rfl) h
  | succ n ih => exact resolve_loop_of_hops grows (fun _ _ loop => ih loop) h

theorem entry?_loop_grow (grows : Grows fs fs') (h : fs.entry? p = .error .linkLoop) :
    fs'.entry? p = .error .linkLoop := by
  have located : fs.locate true p = .error .linkLoop := by
    unfold entry? at h
    cases located : fs.locate true p with
    | error e => simpa [located, Except.bind] using h
    | ok q =>
      simp only [located, Except.bind] at h
      split at h <;> cases h
  have still : fs'.locate true p = .error .linkLoop := by
    unfold locate at located ⊢
    simp only [grows.here] at located ⊢
    split at located
    · cases located
    · split at located
      · cases located
      · split at located
        · cases located
        · simp only [*, if_false]
          exact resolve_loop_grow grows located
  simp [still, entry?, Except.bind]

end FileSystem

end CodeSearch
