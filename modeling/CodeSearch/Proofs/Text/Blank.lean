import CodeSearch.Text.Blank

/-! # The words of a text

A text is words with blanks around them, and in one way only: what is taken for the words of a text
are these words. So the text is blank if it has no words, and else its words with a space between
neighbours say what is left of it if blanks do not count.
-/

namespace CodeSearch

namespace Text

structure IsWord (w : List Char) : Prop where
  nonempty : w ≠ []
  unbroken : ∀ c ∈ w, isBlank c = false

/-- A text is words with blanks around them, with one blank at least between neighbours. -/
inductive Spaced : List (List Char) → List Char → Prop
  | blank {gap} (blank : ∀ c ∈ gap, isBlank c = true) : Spaced [] gap
  | word {gap w ws cs} (blank : ∀ c ∈ gap, isBlank c = true) (isWord : IsWord w)
      (apart : ∀ c ∈ cs.head?, isBlank c = true) (rest : Spaced ws cs) :
      Spaced (w :: ws) (gap ++ w ++ cs)

variable {run gap w cs : List Char} {ws : List (List Char)} {c : Char} {s sep : String}

theorem Spaced.cons_blank (blank : isBlank c = true) (spaced : Spaced ws cs) :
    Spaced ws (c :: cs) := by
  cases spaced with
  | blank rest => exact .blank (List.forall_mem_cons.mpr ⟨blank, rest⟩)
  | word gap isWord apart rest =>
    exact .word (List.forall_mem_cons.mpr ⟨blank, gap⟩) isWord apart rest

theorem Spaced.cons_word (isWord : IsWord w) (apart : ∀ c ∈ cs.head?, isBlank c = true)
    (spaced : Spaced ws cs) : Spaced (w :: ws) (w ++ cs) := by
  rw [← List.nil_append w]
  exact .word nofun isWord apart spaced

/-- Blanks only are no word, and only they are none. -/
theorem spaced_nil_iff : Spaced [] cs ↔ ∀ c ∈ cs, isBlank c = true := by
  constructor
  · intro spaced
    cases spaced with
    | blank blank => exact blank
  · exact Spaced.blank

theorem isWord_reverse : IsWord run.reverse ↔ IsWord run := by
  constructor
  · rintro ⟨nonempty, unbroken⟩
    exact ⟨fun none_ => nonempty (List.reverse_eq_nil_iff.mpr none_),
      fun c listed => unbroken c (List.mem_reverse.mpr listed)⟩
  · rintro ⟨nonempty, unbroken⟩
    exact ⟨fun none_ => nonempty (List.reverse_eq_nil_iff.mp none_),
      fun c listed => unbroken c (List.mem_reverse.mp listed)⟩

/-! ## Runs without blanks -/

theorem runsFrom_gap (cs : List Char) (blank : ∀ c ∈ gap, isBlank c = true) :
    runsFrom isBlank [] (gap ++ cs) = runsFrom isBlank [] cs := by
  induction gap with
  | nil => rfl
  | cons c gap ih =>
    obtain ⟨first, rest⟩ := List.forall_mem_cons.mp blank
    rw [List.cons_append, runsFrom, if_pos first]
    exact ih rest

theorem runsFrom_unbroken (unbroken : ∀ c ∈ w, isBlank c = false) :
    runsFrom isBlank run (w ++ cs) = runsFrom isBlank (w.reverse ++ run) cs := by
  induction w generalizing run with
  | nil => rfl
  | cons c w ih =>
    obtain ⟨first, rest⟩ := List.forall_mem_cons.mp unbroken
    rw [List.cons_append, runsFrom, if_neg (Bool.eq_false_iff.mp first), ih rest,
      List.reverse_cons, List.append_assoc]
    rfl

/-- A run ends before a blank. -/
theorem runsFrom_apart (nonempty : run ≠ []) (apart : ∀ c ∈ cs.head?, isBlank c = true) :
    runsFrom isBlank run cs = run.reverse :: runsFrom isBlank [] cs := by
  have begun : run.isEmpty = false := List.isEmpty_eq_false_iff.mpr nonempty
  cases cs with
  | nil => simp [runsFrom, begun]
  | cons c cs => simp [runsFrom, begun, apart c rfl]

theorem runsFrom_of_spaced (spaced : Spaced ws cs) : runsFrom isBlank [] cs = ws := by
  induction spaced with
  | @blank gap blank =>
    have none_ := runsFrom_gap [] blank
    rwa [List.append_nil] at none_
  | @word gap w ws cs blank isWord apart rest ih =>
    rw [List.append_assoc, runsFrom_gap _ blank, runsFrom_unbroken isWord.unbroken, List.append_nil,
      runsFrom_apart (isWord_reverse.mpr isWord).nonempty apart, List.reverse_reverse, ih]

/-- The runs from the start of a text and those after a word that has begun. The induction is on what
is still to be read. -/
theorem spaced_runsFrom (cs : List Char) : Spaced (runsFrom isBlank [] cs) cs ∧
    ∀ run, IsWord run → Spaced (runsFrom isBlank run cs) (run.reverse ++ cs) := by
  induction cs with
  | nil =>
    refine ⟨.blank nofun, fun run isWord => ?_⟩
    rw [runsFrom_apart isWord.nonempty (by simp)]
    exact .cons_word (isWord_reverse.mpr isWord) (by simp) (.blank nofun)
  | cons c cs ih =>
    obtain ⟨fresh, begun⟩ := ih
    cases blank : isBlank c with
    | false =>
      have longer (run : List Char) (unbroken : ∀ d ∈ run, isBlank d = false) :
          Spaced (runsFrom isBlank run (c :: cs)) (run.reverse ++ c :: cs) := by
        rw [runsFrom, if_neg (Bool.eq_false_iff.mp blank), List.append_cons, ← List.reverse_cons]
        exact begun (c :: run) ⟨List.cons_ne_nil c run, List.forall_mem_cons.mpr ⟨blank, unbroken⟩⟩
      exact ⟨longer [] nofun, fun run isWord => longer run isWord.unbroken⟩
    | true =>
      have rest : Spaced (runsFrom isBlank [] (c :: cs)) (c :: cs) := by
        rw [runsFrom, if_pos blank]
        exact fresh.cons_blank blank
      refine ⟨rest, fun run isWord => ?_⟩
      have apart : ∀ d ∈ (c :: cs).head?, isBlank d = true := by
        rintro _ ⟨⟩
        exact blank
      rw [runsFrom_apart isWord.nonempty apart]
      exact rest.cons_word (isWord_reverse.mpr isWord) apart

theorem runsFrom_eq_iff : runsFrom isBlank [] cs = ws ↔ Spaced ws cs := by
  constructor
  · rintro rfl
    exact (spaced_runsFrom cs).1
  · exact runsFrom_of_spaced

/-! ## Words that are joined -/

/-- Texts that are joined give nothing only if there are none or the one text is empty. -/
theorem intercalate_ne_empty {ss : List String} (some_ : ss ≠ []) (nonempty : ∀ s ∈ ss, s ≠ "") :
    sep.intercalate ss ≠ "" := by
  cases ss with
  | nil => exact absurd rfl some_
  | cons s rest =>
    have first : s ≠ "" := nonempty s List.mem_cons_self
    cases rest with
    | nil => rwa [String.intercalate_singleton]
    | cons t rest =>
      rw [String.intercalate_cons_cons]
      intro none_
      have parts := congrArg String.toList none_
      simp only [String.toList_append, String.toList_empty, List.append_eq_nil_iff] at parts
      exact first (String.toList_inj.mp parts.1.1)

theorem nonempty?_eq_some {t : String} : nonempty? s = some t ↔ s ≠ "" ∧ s = t := by
  rw [nonempty?]
  split
  · simp [*]
  · simp [*]

theorem nonempty?_eq_none : nonempty? s = none ↔ s = "" := by
  rw [nonempty?]
  split
  · simp [*]
  · simp [*]

theorem collapse_eq_empty : collapse s = "" ↔ words s = [] := by
  constructor
  · intro nothing
    refine Decidable.byContradiction fun some_ => intercalate_ne_empty some_ ?_ nothing
    rintro w listed rfl
    exact (mem_words listed).1 rfl
  · intro none_
    rw [collapse, none_]
    rfl

/-- What is left of a text are its words, if there are any, with a space between neighbours. -/
theorem nonempty?_collapse {name : String} : nonempty? (collapse s) = some name ↔
    ∃ ws, Spaced ws s.toList ∧ ws ≠ [] ∧ name = " ".intercalate (ws.map String.ofList) := by
  rw [nonempty?_eq_some, Ne, collapse_eq_empty]
  constructor
  · rintro ⟨some_, rfl⟩
    exact ⟨_, (spaced_runsFrom s.toList).1, fun none_ => some_ (List.map_eq_nil_iff.mpr none_), rfl⟩
  · rintro ⟨ws, spaced, some_, rfl⟩
    obtain rfl := runsFrom_of_spaced spaced
    exact ⟨fun none_ => some_ (List.map_eq_nil_iff.mp none_), rfl⟩

/-- Nothing is left of blanks. -/
theorem nonempty?_collapse_eq_none :
    nonempty? (collapse s) = none ↔ ∀ c ∈ s.toList, isBlank c = true := by
  rw [nonempty?_eq_none, collapse_eq_empty, words, List.map_eq_nil_iff, runsFrom_eq_iff,
    spaced_nil_iff]

end Text

end CodeSearch
