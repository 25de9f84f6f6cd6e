import CodeSearch.Files.Change

/-! # Ways through directories

Following a path means entering one directory after another until the last piece. Where the
pieces before the last one lead depends on the directories and the links alone, so it stays
the same while files come and go.
-/

namespace CodeSearch

namespace FileSystem

variable {fs fs' : FileSystem} {follow : Bool} {n m k : Nat} {base q r : Place}
variable {piece s : String} {ps qs : List String}

/-- What to do at a link, with so many of them left. -/
def hop (fs : FileSystem) (follow : Bool) : Nat → Place → List String → Except FileError Place
  | 0, _, _ => .error .linkLoop
  | n + 1, base, ps => resolve fs follow n base ps

theorem resolve_eq : resolve fs follow n = walk fs follow (hop fs follow n) := by
  cases n <;> rfl

theorem resolve_nil : resolve fs follow n base [] = .ok base := by
  rw [resolve_eq]
  rfl

theorem resolve_idle (h : Path.step? piece = none) :
    resolve fs follow n base (piece :: ps) = resolve fs follow n base ps := by
  rw [resolve_eq, walk, h]

theorem resolve_up (h : Path.step? piece = some .up) :
    resolve fs follow n base (piece :: ps) = resolve fs follow n base.dropLast ps := by
  rw [resolve_eq, walk, h]

theorem resolve_name (h : Path.step? piece = some (.name s)) :
    resolve fs follow n base (piece :: ps) =
      if nameLimit < s.utf8ByteSize then .error .nameTooLong
      else
        match fs.get? (base ++ [s]) with
        | none => if ps.isEmpty then .ok (base ++ [s]) else .error .missing
        | some (.file _) => if ps.isEmpty then .ok (base ++ [s]) else .error .notDirectory
        | some .directory => resolve fs follow n (base ++ [s]) ps
        | some (.link target) =>
          if ps.isEmpty && !follow then .ok (base ++ [s])
          else hop fs follow n (origin base target).1 ((origin base target).2 ++ ps) := by
  rewrite [resolve_eq, walk, h]
  rfl

theorem step?_cases (piece : String) :
    Path.step? piece = none ∨ Path.step? piece = some .up ∨
      ∃ s, Path.step? piece = some (.name s) := by
  unfold Path.step?
  split
  · exact .inl rfl
  · split
    · exact .inr (.inl rfl)
    · exact .inr (.inr ⟨_, rfl⟩)

/-- From a place, with so many links left, pieces lead to another place through directories
and links alone, and so many links are left there. -/
inductive Enters (fs : FileSystem) : Nat → Place → List String → Nat → Place → Prop
  | nil (n : Nat) (base : Place) : Enters fs n base [] n base
  | idle {n m : Nat} {base q : Place} {piece : String} {ps : List String}
      (h : Path.step? piece = none) (rest : Enters fs n base ps m q) :
      Enters fs n base (piece :: ps) m q
  | up {n m : Nat} {base q : Place} {piece : String} {ps : List String}
      (h : Path.step? piece = some .up) (rest : Enters fs n base.dropLast ps m q) :
      Enters fs n base (piece :: ps) m q
  | down {n m : Nat} {base q : Place} {piece s : String} {ps : List String}
      (h : Path.step? piece = some (.name s)) (short : ¬nameLimit < s.utf8ByteSize)
      (here : fs.get? (base ++ [s]) = some .directory)
      (rest : Enters fs n (base ++ [s]) ps m q) : Enters fs n base (piece :: ps) m q
  | jump {n m : Nat} {base q : Place} {piece s : String} {ps : List String} {target : Path}
      (h : Path.step? piece = some (.name s)) (short : ¬nameLimit < s.utf8ByteSize)
      (here : fs.get? (base ++ [s]) = some (.link target))
      (rest : Enters fs n (origin base target).1 ((origin base target).2 ++ ps) m q) :
      Enters fs (n + 1) base (piece :: ps) m q

theorem Enters.append (h : Enters fs n base ps m q) (h' : Enters fs m q qs k r) :
    Enters fs n base (ps ++ qs) k r := by
  induction h with
  | nil => exact h'
  | idle h _ ih => exact .idle h (ih h')
  | up h _ ih => exact .up h (ih h')
  | down h short here _ ih => exact .down h short here (ih h')
  | jump h short here _ ih =>
    refine .jump h short here ?_
    have rest := ih h'
    rwa [List.append_assoc] at rest

/-- The way splits where its pieces do. -/
theorem Enters.split (h : Enters fs n base (ps ++ qs) k r) :
    ∃ m q, Enters fs n base ps m q ∧ Enters fs m q qs k r := by
  generalize whole : ps ++ qs = all at h
  induction h generalizing ps with
  | nil n base =>
    obtain ⟨rfl, rfl⟩ := List.append_eq_nil_iff.mp whole
    exact ⟨n, base, .nil n base, .nil n base⟩
  | idle h rest ih =>
    cases ps with
    | nil =>
      obtain rfl := whole
      exact ⟨_, _, .nil _ _, .idle h rest⟩
    | cons p ps =>
      obtain ⟨rfl, tail⟩ := List.cons.inj whole
      obtain ⟨m, q, first, second⟩ := ih tail
      exact ⟨m, q, .idle h first, second⟩
  | up h rest ih =>
    cases ps with
    | nil =>
      obtain rfl := whole
      exact ⟨_, _, .nil _ _, .up h rest⟩
    | cons p ps =>
      obtain ⟨rfl, tail⟩ := List.cons.inj whole
      obtain ⟨m, q, first, second⟩ := ih tail
      exact ⟨m, q, .up h first, second⟩
  | down h short here rest ih =>
    cases ps with
    | nil =>
      obtain rfl := whole
      exact ⟨_, _, .nil _ _, .down h short here rest⟩
    | cons p ps =>
      obtain ⟨rfl, tail⟩ := List.cons.inj whole
      obtain ⟨m, q, first, second⟩ := ih tail
      exact ⟨m, q, .down h short here first, second⟩
  | jump h short here rest ih =>
    cases ps with
    | nil =>
      obtain rfl := whole
      exact ⟨_, _, .nil _ _, .jump h short here rest⟩
    | cons p ps =>
      obtain ⟨rfl, tail⟩ := List.cons.inj whole
      obtain rfl : ps ++ qs = _ := tail
      obtain ⟨m, q, first, second⟩ := ih (List.append_assoc ..)
      exact ⟨m, q, .jump h short here first, second⟩

/-- Idle pieces lead nowhere else. -/
theorem Enters.idles (idle : ∀ p ∈ ps, Path.step? p = none) : Enters fs n base ps n base := by
  induction ps with
  | nil => exact .nil n base
  | cons p ps ih =>
    exact .idle (idle p List.mem_cons_self) (ih fun p' hp => idle p' (List.mem_cons_of_mem _ hp))

theorem Enters.eq_of_idles (idle : ∀ p ∈ ps, Path.step? p = none)
    (h : Enters fs n base ps m q) : m = n ∧ q = base := by
  induction ps with
  | nil =>
    cases h
    exact ⟨rfl, rfl⟩
  | cons p ps ih =>
    have none := idle p List.mem_cons_self
    cases h with
    | idle _ rest => exact ih (fun p' hp => idle p' (List.mem_cons_of_mem _ hp)) rest
    | up h _ => simp [none] at h
    | down h _ _ _ => simp [none] at h
    | jump h _ _ _ => simp [none] at h

/-- Following a path goes on from where its first pieces lead. -/
theorem Enters.resolve_append (more : qs ≠ [] ∨ follow = true) (h : Enters fs n base ps m q) :
    resolve fs follow n base (ps ++ qs) = resolve fs follow m q qs := by
  induction h with
  | nil => rfl
  | idle h _ ih => rw [List.cons_append, resolve_idle h, ih]
  | up h _ ih => rw [List.cons_append, resolve_up h, ih]
  | down h short here _ ih =>
    rw [List.cons_append, resolve_name h, if_neg short, here]
    exact ih
  | @jump n _ base _ _ _ ps target h short here _ ih =>
    have onward : ((ps ++ qs).isEmpty && !follow) = false := by
      rcases more with more | rfl
      · simp [more]
      · simp
    rw [List.append_assoc] at ih
    rw [List.cons_append, resolve_name h, if_neg short, here]
    simp only [onward, Bool.false_eq_true, if_false, hop]
    exact ih

/-- Directories and links stay what they are, and more may come. -/
structure Grows (fs fs' : FileSystem) : Prop where
  here : fs'.here = fs.here
  directory : ∀ p, fs.get? p = some .directory → fs'.get? p = some .directory
  link : ∀ p target, fs.get? p = some (.link target) → fs'.get? p = some (.link target)

theorem Grows.refl (fs : FileSystem) : Grows fs fs := ⟨rfl, fun _ h => h, fun _ _ h => h⟩

theorem Grows.trans {fs'' : FileSystem} (h : Grows fs fs') (h' : Grows fs' fs'') :
    Grows fs fs'' where
  here := h'.here.trans h.here
  directory p hp := h'.directory p (h.directory p hp)
  link p t hp := h'.link p t (h.link p t hp)

theorem Enters.grow (grows : Grows fs fs') (h : Enters fs n base ps m q) :
    Enters fs' n base ps m q := by
  induction h with
  | nil n base => exact .nil n base
  | idle h _ ih => exact .idle h ih
  | up h _ ih => exact .up h ih
  | down h short here _ ih => exact .down h short (grows.directory _ here) ih
  | jump h short here _ ih => exact .jump h short (grows.link _ _ here) ih

/-- How a path that can be followed leads to its place: what is there last may be missing, a
file, or a link that is not to be followed. -/
inductive Leads (fs : FileSystem) (follow : Bool) : Nat → Place → List String → Place → Prop
  | nil (n : Nat) (base : Place) : Leads fs follow n base [] base
  | idle {n : Nat} {base q : Place} {piece : String} {ps : List String}
      (h : Path.step? piece = none) (rest : Leads fs follow n base ps q) :
      Leads fs follow n base (piece :: ps) q
  | up {n : Nat} {base q : Place} {piece : String} {ps : List String}
      (h : Path.step? piece = some .up) (rest : Leads fs follow n base.dropLast ps q) :
      Leads fs follow n base (piece :: ps) q
  | down {n : Nat} {base q : Place} {piece s : String} {ps : List String}
      (h : Path.step? piece = some (.name s)) (short : ¬nameLimit < s.utf8ByteSize)
      (here : fs.get? (base ++ [s]) = some .directory)
      (rest : Leads fs follow n (base ++ [s]) ps q) : Leads fs follow n base (piece :: ps) q
  | jump {n : Nat} {base q : Place} {piece s : String} {ps : List String} {target : Path}
      (h : Path.step? piece = some (.name s)) (short : ¬nameLimit < s.utf8ByteSize)
      (here : fs.get? (base ++ [s]) = some (.link target))
      (rest : Leads fs follow n (origin base target).1 ((origin base target).2 ++ ps) q) :
      Leads fs follow (n + 1) base (piece :: ps) q
  | stop {n : Nat} {base : Place} {piece s : String}
      (h : Path.step? piece = some (.name s)) (short : ¬nameLimit < s.utf8ByteSize)
      (here : fs.get? (base ++ [s]) ≠ some .directory)
      (still : ∀ target, fs.get? (base ++ [s]) = some (.link target) → follow = false) :
      Leads fs follow n base [piece] (base ++ [s])

theorem leads_of_hops
    (hops : ∀ base ps r, hop fs follow n base ps = .ok r →
      ∃ k, n = k + 1 ∧ Leads fs follow k base ps r)
    (h : resolve fs follow n base ps = .ok r) : Leads fs follow n base ps r := by
  induction ps generalizing base with
  | nil =>
    obtain rfl := Except.ok.inj (resolve_nil.symm.trans h)
    exact .nil n base
  | cons p ps ih =>
    rcases step?_cases p with none | up | ⟨s, name⟩
    · rw [resolve_idle none] at h
      exact .idle none (ih h)
    · rw [resolve_up up] at h
      exact .up up (ih h)
    · rw [resolve_name name] at h
      split at h
      · cases h
      · rename_i short
        split at h
        · rename_i here
          split at h
          · rename_i last
            obtain rfl := List.isEmpty_iff.mp last
            cases h
            exact .stop name short (by simp [here]) (by simp [here])
          · cases h
        · rename_i here
          split at h
          · rename_i last
            obtain rfl := List.isEmpty_iff.mp last
            cases h
            exact .stop name short (by simp [here]) (by simp [here])
          · cases h
        · rename_i here
          exact .down name short here (ih h)
        · rename_i target here
          split at h
          · rename_i last
            obtain ⟨last, still⟩ := Bool.and_eq_true_iff.mp last
            obtain rfl := List.isEmpty_iff.mp last
            cases h
            exact .stop name short (by simp [here]) fun _ _ => by simpa using still
          · obtain ⟨k, rfl, rest⟩ := hops _ _ _ h
            exact .jump name short here rest

theorem leads_of_resolve (h : resolve fs follow n base ps = .ok r) :
    Leads fs follow n base ps r := by
  induction n generalizing base ps r with
  | zero =>
    refine leads_of_hops (fun _ _ _ h => ?_) h
    cases h
  | succ n ih => exact leads_of_hops (fun _ _ _ h => ⟨n, rfl, ih h⟩) h

/-- Where a path is followed past some pieces, these lead through directories. -/
theorem Leads.enters (more : qs ≠ []) (h : Leads fs follow n base (ps ++ qs) r) :
    ∃ m q, Enters fs n base ps m q := by
  generalize whole : ps ++ qs = all at h
  induction h generalizing ps with
  | nil =>
    exact absurd (List.append_eq_nil_iff.mp whole).2 more
  | idle h rest ih =>
    rcases ps with _ | ⟨p, ps⟩
    · exact ⟨_, _, .nil _ _⟩
    · obtain ⟨rfl, tail⟩ := List.cons.inj whole
      obtain ⟨m, q, way⟩ := ih tail
      exact ⟨m, q, .idle h way⟩
  | up h rest ih =>
    rcases ps with _ | ⟨p, ps⟩
    · exact ⟨_, _, .nil _ _⟩
    · obtain ⟨rfl, tail⟩ := List.cons.inj whole
      obtain ⟨m, q, way⟩ := ih tail
      exact ⟨m, q, .up h way⟩
  | down h short here rest ih =>
    rcases ps with _ | ⟨p, ps⟩
    · exact ⟨_, _, .nil _ _⟩
    · obtain ⟨rfl, tail⟩ := List.cons.inj whole
      obtain ⟨m, q, way⟩ := ih tail
      exact ⟨m, q, .down h short here way⟩
  | jump h short here rest ih =>
    rcases ps with _ | ⟨p, ps⟩
    · exact ⟨_, _, .nil _ _⟩
    · obtain ⟨rfl, tail⟩ := List.cons.inj whole
      obtain rfl : ps ++ qs = _ := tail
      obtain ⟨m, q, way⟩ := ih (List.append_assoc ..)
      exact ⟨m, q, .jump h short here way⟩
  | stop h short here still =>
    rcases ps with _ | ⟨p, ps⟩
    · exact ⟨_, _, .nil _ _⟩
    · obtain ⟨-, tail⟩ := List.cons.inj whole
      exact absurd (List.append_eq_nil_iff.mp tail).2 more

/-- A path leads through directories to what has become one. -/
theorem Leads.enters_of_directory (h : Leads fs follow n base ps r) (grows : Grows fs fs')
    (there : fs'.get? r = some .directory) : ∃ m, Enters fs' n base ps m r := by
  induction h with
  | nil n base => exact ⟨n, .nil n base⟩
  | idle h _ ih =>
    obtain ⟨m, way⟩ := ih there
    exact ⟨m, .idle h way⟩
  | up h _ ih =>
    obtain ⟨m, way⟩ := ih there
    exact ⟨m, .up h way⟩
  | down h short here _ ih =>
    obtain ⟨m, way⟩ := ih there
    exact ⟨m, .down h short (grows.directory _ here) way⟩
  | jump h short here _ ih =>
    obtain ⟨m, way⟩ := ih there
    exact ⟨m, .jump h short (grows.link _ _ here) way⟩
  | stop h short _ _ => exact ⟨_, .down h short there (.nil _ _)⟩

end FileSystem

end CodeSearch
