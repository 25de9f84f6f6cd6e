import CodeSearch.Name.TestName
import CodeSearch.Proofs.Text.Expression

/-! # The language of test names

The names of test cases are given by a regular expression without case. It recognises the texts in
three parts that open in one of three ways, go on with a word and close with word characters; what a
name is tested for recognises the same texts, by whichever folding the cases are compared.
-/

namespace CodeSearch

namespace TestName

open Text

/-- The characters of a name in capitals. -/
def isShouted (c : Char) : Bool := c.isUpper || c = '_'

/-! ## The expression -/

section Pattern

open Expression

/-- Word characters up to the end. -/
def ending : Expression := cat (many (one isWord)) stop

/-- A segment that opens with `test_`. -/
def segment : Expression := cat (alt start (one (· = '_'))) (cat (word "test_".toList) ending)

/-- A name in capitals that goes on with a word. -/
def shouted (lit : String) : Expression :=
  cat start (cat (some (one isShouted)) (cat (word lit.toList) ending))

/-- The word `Test` before a letter. -/
def titled : Expression := cat (word "Test".toList) (cat (one Char.isUpper) ending)

/-- What a name of a test case matches. -/
def pattern : Expression := alt segment (alt (shouted "_TEST_") (alt (shouted "_CASE_") titled))

end Pattern

/-! ## The language -/

/-- The start of a text, or what is before a segment of it. -/
def Fresh (cs : List Char) : Prop := cs = [] ∨ ∃ ds, cs = ds ++ ['_']

def Words (cs : List Char) : Prop := ∀ c ∈ cs, isWord c = true

/-- The names of test cases, with words in lower case and letters that can be told in upper case. -/
inductive Named : List Char → Prop
  | segment {p w} (fresh : Fresh p) (words : Words w) : Named (p ++ "test_".toList ++ w)
  | shouted {p w} (nonempty : p ≠ []) (capitals : ∀ c ∈ p, isShouted c = true) (words : Words w) :
      Named (p ++ "_case_".toList ++ w)
  | titled {p l w} (capital : l.isUpper = true) (words : Words w) :
      Named (p ++ "test".toList ++ l :: w)

/-! ## Texts in three parts -/

section Parts

variable {φ : Folding} {opens opens' closes closes' : List Char → Prop} {lit : List Char}
variable {cs p w : List Char} {c : Char}

/-- A text in three parts, the second of which is a word up to case. -/
def Parts (φ : Folding) (opens : List Char → Prop) (lit : List Char) (closes : List Char → Prop)
    (cs : List Char) : Prop :=
  ∃ p m w, cs = p ++ m ++ w ∧ opens p ∧ φ.Same m lit ∧ closes w

def Capitals (φ : Folding) (cs : List Char) : Prop := cs ≠ [] ∧ ∀ c ∈ cs, φ.Passes isShouted c

def Lettered (φ : Folding) (cs : List Char) : Prop :=
  ∃ l w, cs = l :: w ∧ φ.Passes Char.isUpper l ∧ Words w

/-- The three ways in which a text may name a test case. -/
def Shape (φ : Folding) (cs : List Char) : Prop :=
  Parts φ Fresh "test_".toList Words cs ∨
    Parts φ (Capitals φ) "_case_".toList Words cs ∨
    Parts φ (fun _ => True) "test".toList (Lettered φ) cs

theorem Parts.imp (parts : Parts φ opens lit closes cs) (before : ∀ p, opens p → opens' p)
    (after : ∀ w, closes w → closes' w) : Parts φ opens' lit closes' cs := by
  obtain ⟨p, m, w, cut, opened, same, closed⟩ := parts
  exact ⟨p, m, w, cut, before p opened, same, after w closed⟩

theorem parts_congr (before : ∀ p, opens p ↔ opens' p) (after : ∀ w, closes w ↔ closes' w) :
    Parts φ opens lit closes cs ↔ Parts φ opens' lit closes' cs :=
  ⟨fun parts => parts.imp (fun p => (before p).mp) fun w => (after w).mp,
    fun parts => parts.imp (fun p => (before p).mpr) fun w => (after w).mpr⟩

theorem parts_least (plain : lit.all isPlain = true) :
    Parts φ opens lit closes cs ↔ Parts .least opens lit closes cs := by
  simp only [Parts, φ.same_iff plain]

/-- How a word is written makes no difference. -/
theorem parts_same {lit' : List Char} (same : φ.Same lit lit') :
    Parts φ opens lit closes cs ↔ Parts φ opens lit' closes cs := by
  simp only [Parts, Folding.Same, show lit.map φ.fold = lit'.map φ.fold from same]

/-- An underscore before a word makes what is before the word the end of a segment. -/
theorem Parts.fresh (parts : Parts φ opens ('_' :: lit) closes cs) :
    Parts φ Fresh lit closes cs := by
  obtain ⟨p, m, w, rfl, -, word, closed⟩ := parts
  obtain ⟨b, m, rfl, bar, rest⟩ := Folding.same_cons.mp word
  obtain rfl := φ.eq_bar.mp bar
  exact ⟨p ++ ['_'], m, w, by simp, .inr ⟨p, rfl⟩, rest, closed⟩

theorem isPlain_of_isUpper (capital : c.isUpper = true) : isPlain c = true := by
  apply Bool.or_eq_true_iff.mpr
  exact .inl (Bool.or_eq_true_iff.mpr (.inl capital))

theorem isPlain_of_isShouted (shouted : isShouted c = true) : isPlain c = true := by
  rcases Bool.or_eq_true_iff.mp shouted with capital | bar
  · exact isPlain_of_isUpper capital
  · obtain rfl := of_decide_eq_true bar
    decide

/-- All foldings give names of test cases the same shapes. -/
theorem shape_least : Shape φ cs ↔ Shape .least cs := by
  have capitals (p : List Char) : Capitals φ p ↔ Capitals .least p := by
    simp only [Capitals, φ.passes_iff fun _ => isPlain_of_isShouted]
  have lettered (w : List Char) : Lettered φ w ↔ Lettered .least w := by
    simp only [Lettered, φ.passes_iff fun _ => isPlain_of_isUpper]
  refine or_congr (parts_least (by decide)) (or_congr ?_ ?_)
  · exact (parts_least (by decide)).trans (parts_congr capitals fun _ => .rfl)
  · exact (parts_least (by decide)).trans (parts_congr (fun _ => .rfl) lettered)

end Parts

/-! ## The language has these shapes -/

section Language

variable {φ : Folding} {cs : List Char}

theorem words_same {w v : List Char} (same : φ.Same w v) (words : Words v) : Words w := by
  intro c listed
  apply φ.passes_isWord.mp
  exact Folding.exists_same.mpr ⟨v, words, same⟩ c listed

theorem fresh_same {p q : List Char} (same : φ.Same p q) (fresh : Fresh q) : Fresh p := by
  rcases fresh with rfl | ⟨q, rfl⟩
  · exact .inl (Folding.same_nil.mp same)
  · obtain ⟨p, _, rfl, -, last⟩ := Folding.same_append.mp same
    obtain ⟨c, _, rfl, bar, none_⟩ := Folding.same_cons.mp last
    obtain rfl := Folding.same_nil.mp none_
    obtain rfl := φ.eq_bar.mp bar
    exact .inr ⟨p, rfl⟩

theorem exists_named_iff : (∃ ds, φ.Same cs ds ∧ Named ds) ↔ Shape φ cs := by
  constructor
  · rintro ⟨ds, same, named⟩
    cases named with
    | @segment p w fresh words =>
      obtain ⟨_, w', rfl, before, after⟩ := Folding.same_append.mp same
      obtain ⟨p', m, rfl, opened, word⟩ := Folding.same_append.mp before
      exact .inl ⟨p', m, w', rfl, fresh_same opened fresh, word, words_same after words⟩
    | @shouted p w nonempty capitals words =>
      obtain ⟨_, w', rfl, before, after⟩ := Folding.same_append.mp same
      obtain ⟨p', m, rfl, opened, word⟩ := Folding.same_append.mp before
      refine .inr (.inl ⟨p', m, w', rfl, ⟨?_, ?_⟩, word, words_same after words⟩)
      · rintro rfl
        exact nonempty (Folding.same_nil.mp opened.symm)
      · exact Folding.exists_same.mpr ⟨p, capitals, opened⟩
    | @titled p l w capital words =>
      obtain ⟨_, w', rfl, before, after⟩ := Folding.same_append.mp same
      obtain ⟨p', m, rfl, -, word⟩ := Folding.same_append.mp before
      obtain ⟨l', v, rfl, letter, rest⟩ := Folding.same_cons.mp after
      exact .inr (.inr ⟨p', m, l' :: v, rfl, trivial, word, l', v, rfl, ⟨l, capital, letter⟩,
        words_same rest words⟩)
  · rintro (⟨p, m, w, rfl, fresh, word, words⟩ | ⟨p, m, w, rfl, ⟨nonempty, capitals⟩, word, words⟩ |
      ⟨p, m, _, rfl, -, word, l, w, rfl, ⟨d, capital, letter⟩, words⟩)
    · exact ⟨_, (Folding.Same.append rfl word).append rfl, .segment fresh words⟩
    · obtain ⟨q, all, same⟩ := Folding.exists_same.mp capitals
      refine ⟨_, (same.append word).append rfl, .shouted ?_ all words⟩
      rintro rfl
      exact nonempty (Folding.same_nil.mp same)
    · exact ⟨_, (Folding.Same.append rfl word).append (Folding.same_cons.mpr ⟨l, w, rfl, letter, rfl⟩),
        .titled capital words⟩

end Language

/-! ## The expression has these shapes -/

section Pattern

open Expression

variable {φ : Folding} {cs before xs after : List Char} {lit : String}

theorem matches_ending : Matches φ ending before xs after ↔ after = [] ∧ Words xs := by
  rw [ending, matches_cat]
  constructor
  · rintro ⟨ys, zs, rfl, all, last⟩
    obtain ⟨rfl, rfl⟩ := matches_stop.mp last
    rw [List.append_nil]
    exact ⟨rfl, fun c listed => φ.passes_isWord.mp (matches_many_one.mp all c listed)⟩
  · rintro ⟨rfl, words⟩
    refine ⟨xs, [], (List.append_nil xs).symm, matches_many_one.mpr fun c listed => ?_, .stop⟩
    exact φ.passes_isWord.mpr (words c listed)

/-- What a word before the ending is. -/
theorem matches_word_ending : Matches φ (cat (word lit.toList) ending) before xs after ↔
    after = [] ∧ ∃ m w, xs = m ++ w ∧ φ.Same m lit.toList ∧ Words w := by
  rw [matches_cat]
  constructor
  · rintro ⟨m, w, rfl, same, last⟩
    obtain ⟨rfl, words⟩ := matches_ending.mp last
    exact ⟨rfl, m, w, rfl, matches_word.mp same, words⟩
  · rintro ⟨rfl, m, w, rfl, same, words⟩
    exact ⟨m, w, rfl, matches_word.mpr same, matches_ending.mpr ⟨rfl, words⟩⟩

theorem occurs_segment : Occurs φ segment cs ↔ Parts φ Fresh "test_".toList Words cs := by
  constructor
  · rintro ⟨before, _, after, rfl, matched⟩
    obtain ⟨p, _, rfl, opened, rest⟩ := matches_cat.mp matched
    obtain ⟨rfl, m, w, rfl, same, words⟩ := matches_word_ending.mp rest
    refine ⟨before ++ p, m, w, by simp, ?_, same, words⟩
    rcases matches_alt.mp opened with first | bar
    · obtain ⟨rfl, rfl⟩ := matches_start.mp first
      exact .inl rfl
    · obtain ⟨c, rfl, d, isBar, same⟩ := matches_one.mp bar
      obtain rfl := of_decide_eq_true isBar
      obtain rfl := φ.eq_bar.mp same
      exact .inr ⟨before, rfl⟩
  · rintro ⟨p, m, w, rfl, fresh, same, words⟩
    have rest (q : List Char) : Matches φ (cat (word "test_".toList) ending) q (m ++ w) [] :=
      matches_word_ending.mpr ⟨rfl, m, w, rfl, same, words⟩
    rcases fresh with rfl | ⟨q, rfl⟩
    · exact ⟨[], [] ++ (m ++ w), [], by simp, .cat (.left .start) (rest _)⟩
    · refine ⟨q, ['_'] ++ (m ++ w), [], by simp, .cat (.right (.one ?_)) (rest _)⟩
      exact ⟨'_', rfl, rfl⟩

theorem occurs_shouted : Occurs φ (shouted lit) cs ↔ Parts φ (Capitals φ) lit.toList Words cs := by
  constructor
  · rintro ⟨before, _, after, rfl, matched⟩
    obtain ⟨_, _, rfl, first, rest⟩ := matches_cat.mp matched
    obtain ⟨rfl, rfl⟩ := matches_start.mp first
    obtain ⟨p, _, rfl, capitals, rest⟩ := matches_cat.mp rest
    obtain ⟨rfl, m, w, rfl, same, words⟩ := matches_word_ending.mp rest
    exact ⟨p, m, w, by simp, matches_some_one.mp capitals, same, words⟩
  · rintro ⟨p, m, w, rfl, capitals, same, words⟩
    refine ⟨[], [] ++ (p ++ (m ++ w)), [], by simp, .cat .start (.cat ?_ ?_)⟩
    · exact matches_some_one.mpr capitals
    · exact matches_word_ending.mpr ⟨rfl, m, w, rfl, same, words⟩

theorem occurs_titled :
    Occurs φ titled cs ↔ Parts φ (fun _ => True) "Test".toList (Lettered φ) cs := by
  constructor
  · rintro ⟨before, _, after, rfl, matched⟩
    obtain ⟨m, _, rfl, same, rest⟩ := matches_cat.mp matched
    obtain ⟨_, w, rfl, letter, rest⟩ := matches_cat.mp rest
    obtain ⟨l, rfl, capital⟩ := matches_one.mp letter
    obtain ⟨rfl, words⟩ := matches_ending.mp rest
    exact ⟨before, m, l :: w, by simp, trivial, matches_word.mp same, l, w, rfl, capital, words⟩
  · rintro ⟨p, m, _, rfl, -, same, l, w, rfl, letter, words⟩
    refine ⟨p, m ++ ([l] ++ w), [], by simp, .cat (matches_word.mpr same) (.cat (.one letter) ?_)⟩
    exact matches_ending.mpr ⟨rfl, words⟩

/-- A name in capitals before `_TEST_` is what is before a segment. -/
theorem occurs_segment_of_shouted (occurs : Occurs φ (shouted "_TEST_") cs) :
    Occurs φ segment cs := by
  have bar : φ.Same "_TEST_".toList ('_' :: "test_".toList) :=
    (φ.same_iff (by decide)).mpr (by decide)
  apply occurs_segment.mpr
  exact ((parts_same bar).mp (occurs_shouted.mp occurs)).fresh

theorem occurs_pattern : Occurs φ pattern cs ↔ Shape φ cs := by
  have cases_ : Occurs φ (shouted "_CASE_") cs ↔
      Parts φ (Capitals φ) "_case_".toList Words cs :=
    occurs_shouted.trans (parts_same ((φ.same_iff (by decide)).mpr (by decide)))
  have titles : Occurs φ titled cs ↔ Parts φ (fun _ => True) "test".toList (Lettered φ) cs :=
    occurs_titled.trans (parts_same ((φ.same_iff (by decide)).mpr (by decide)))
  rw [pattern, occurs_alt, occurs_alt, occurs_alt, cases_, titles, Shape, ← occurs_segment]
  constructor
  · rintro (segment | shouted | rest)
    · exact .inl segment
    · exact .inl (occurs_segment_of_shouted shouted)
    · exact .inr rest
  · rintro (segment | rest)
    · exact .inl segment
    · exact .inr (.inr rest)

end Pattern

/-! ## What names are tested for has these shapes -/

section Matcher

variable {lit xs cs : List Char} {fresh : Bool} {c : Char}

theorem goesOn_iff : goesOn lit xs = true ↔ ∃ w, xs = lit ++ w ∧ Words w := by
  rw [goesOn, Bool.and_eq_true, List.isPrefixOf_iff_prefix, List.all_eq_true]
  constructor
  · rintro ⟨⟨w, rfl⟩, words⟩
    rw [List.drop_left] at words
    exact ⟨w, rfl, words⟩
  · rintro ⟨w, rfl, words⟩
    rw [List.drop_left]
    exact ⟨List.prefix_append lit w, words⟩

theorem hasSegment_iff : hasSegment fresh xs = true ↔
    ∃ p w, xs = p ++ "test_".toList ++ w ∧ (p = [] ∧ fresh = true ∨ ∃ q, p = q ++ ['_']) ∧
      Words w := by
  induction xs generalizing fresh with
  | nil => simp [hasSegment]
  | cons c xs ih =>
    rw [hasSegment, Bool.or_eq_true, Bool.and_eq_true, goesOn_iff, ih]
    constructor
    · rintro (⟨isFresh, w, cut, words⟩ | ⟨p, w, rfl, opened, words⟩)
      · exact ⟨[], w, cut, .inl ⟨rfl, isFresh⟩, words⟩
      · refine ⟨c :: p, w, rfl, .inr ?_, words⟩
        rcases opened with ⟨rfl, bar⟩ | ⟨q, rfl⟩
        · exact ⟨[], by rw [of_decide_eq_true bar]; rfl⟩
        · exact ⟨c :: q, rfl⟩
    · rintro ⟨_ | ⟨d, p⟩, w, cut, opened, words⟩
      · rcases opened with ⟨-, isFresh⟩ | ⟨q, none_⟩
        · exact .inl ⟨isFresh, w, cut, words⟩
        · cases q <;> cases none_
      · obtain ⟨rfl, rfl⟩ := List.cons_eq_cons.mp cut
        refine .inr ⟨p, w, rfl, ?_, words⟩
        rcases opened with ⟨none_, -⟩ | ⟨_ | ⟨e, q⟩, last⟩
        · cases none_
        · cases last
          exact .inl ⟨rfl, rfl⟩
        · cases last
          exact .inr ⟨q, rfl⟩

theorem hasMiddle_iff : hasMiddle lit xs = true ↔
    ∃ p w, xs = p ++ lit ++ w ∧ (p ≠ [] ∧ ∀ c ∈ p, (isLetter c || c = '_') = true) ∧ Words w := by
  induction xs with
  | nil =>
    constructor
    · nofun
    · rintro ⟨p, w, cut, ⟨nonempty, -⟩, -⟩
      exact absurd (List.append_eq_nil_iff.mp (List.append_eq_nil_iff.mp cut.symm).1).1 nonempty
  | cons c xs ih =>
    rw [hasMiddle, Bool.and_eq_true, Bool.or_eq_true (goesOn lit xs), goesOn_iff, ih]
    constructor
    · rintro ⟨letter, ⟨w, rfl, words⟩ | ⟨p, w, rfl, ⟨-, letters⟩, words⟩⟩
      · exact ⟨[c], w, rfl, ⟨List.cons_ne_nil _ _, List.forall_mem_singleton.mpr letter⟩, words⟩
      · exact ⟨c :: p, w, rfl, ⟨List.cons_ne_nil _ _, List.forall_mem_cons.mpr ⟨letter, letters⟩⟩,
          words⟩
    · rintro ⟨_ | ⟨d, p⟩, w, cut, ⟨nonempty, letters⟩, words⟩
      · exact absurd rfl nonempty
      · obtain ⟨rfl, rfl⟩ := List.cons_eq_cons.mp cut
        obtain ⟨letter, letters⟩ := List.forall_mem_cons.mp letters
        refine ⟨letter, ?_⟩
        cases p with
        | nil => exact .inl ⟨w, rfl, words⟩
        | cons e p => exact .inr ⟨e :: p, w, rfl, ⟨List.cons_ne_nil _ _, letters⟩, words⟩

theorem startsNamed_iff : startsNamed xs = true ↔
    ∃ w, xs = "test".toList ++ w ∧ ∃ l v, w = l :: v ∧ isLetter l = true ∧ Words v := by
  constructor
  · intro starts
    unfold startsNamed at starts
    split at starts
    · rename_i l v
      obtain ⟨letter, words⟩ := Bool.and_eq_true_iff.mp starts
      exact ⟨l :: v, rfl, l, v, rfl, letter, List.all_eq_true.mp words⟩
    · cases starts
  · rintro ⟨_, rfl, l, v, rfl, letter, words⟩
    exact Bool.and_eq_true_iff.mpr ⟨letter, List.all_eq_true.mpr words⟩

theorem hasNamed_iff : hasNamed xs = true ↔
    ∃ p w, xs = p ++ "test".toList ++ w ∧ True ∧ ∃ l v, w = l :: v ∧ isLetter l = true ∧ Words v := by
  induction xs with
  | nil => simp [hasNamed]
  | cons c xs ih =>
    rw [hasNamed, Bool.or_eq_true, startsNamed_iff, ih]
    constructor
    · rintro (⟨w, cut, rest⟩ | ⟨p, w, rfl, rest⟩)
      · exact ⟨[], w, cut, trivial, rest⟩
      · exact ⟨c :: p, w, rfl, rest⟩
    · rintro ⟨_ | ⟨d, p⟩, w, cut, rest⟩
      · exact .inl ⟨w, cut, rest.2⟩
      · obtain ⟨rfl, rfl⟩ := List.cons_eq_cons.mp cut
        exact .inr ⟨p, w, rfl, rest⟩

/-- A folded text has a word that is its own folding where the text has the word up to case. -/
theorem parts_fold {opens closes : List Char → Prop} (folded : lit.map fold = lit) :
    (∃ p w, cs.map fold = p ++ lit ++ w ∧ opens p ∧ closes w) ↔
      Parts .least (fun p => opens (p.map fold)) lit (fun w => closes (w.map fold)) cs := by
  constructor
  · rintro ⟨p, w, cut, opened, closed⟩
    obtain ⟨_, w, rfl, before, rfl⟩ := List.map_eq_append_iff.mp cut
    obtain ⟨p, m, rfl, rfl, word⟩ := List.map_eq_append_iff.mp before
    exact ⟨p, m, w, rfl, opened, word.trans folded.symm, closed⟩
  · rintro ⟨p, m, w, rfl, opened, same, closed⟩
    refine ⟨p.map fold, w.map fold, ?_, opened, closed⟩
    rw [List.map_append, List.map_append, show m.map fold = lit.map fold from same, folded]

theorem words_fold {w : List Char} : Words (w.map fold) ↔ Words w := by
  simp only [Words, List.forall_mem_map, isWord_fold]

theorem fresh_fold {p : List Char} :
    (p.map fold = [] ∧ true = true ∨ ∃ q, p.map fold = q ++ ['_']) ↔ Fresh p := by
  constructor
  · rintro (⟨none_, -⟩ | ⟨q, last⟩)
    · exact .inl (List.map_eq_nil_iff.mp none_)
    · obtain ⟨q, _, rfl, -, last⟩ := List.map_eq_append_iff.mp last
      obtain ⟨c, _, rfl, bar, none_⟩ := List.map_eq_cons_iff.mp last
      obtain rfl := List.map_eq_nil_iff.mp none_
      obtain rfl := fold_eq_bar.mp bar
      exact .inr ⟨q, rfl⟩
  · rintro (rfl | ⟨q, rfl⟩)
    · exact .inl ⟨rfl, rfl⟩
    · exact .inr ⟨q.map fold, List.map_append⟩

theorem passes_isUpper : Folding.least.Passes Char.isUpper c ↔ isLetter (fold c) = true := by
  constructor
  · rintro ⟨d, capital, same⟩
    rw [show fold c = fold d from same]
    exact forall_isUpper (fun d => isLetter (fold d) = true) (by decide) capital
  · intro letter
    have bounds : 97 ≤ (fold c).toNat ∧ (fold c).toNat ≤ 122 := by
      simpa [isLetter, Char.le_def, UInt32.le_iff_toNat_le] using letter
    obtain ⟨capital, same⟩ := forall_between
      (fun d => d.toUpper.isUpper = true ∧ fold d.toUpper = d) 97 26 (by decide)
      bounds.1 (by omega)
    exact ⟨(fold c).toUpper, capital, same.symm⟩

theorem passes_isShouted :
    Folding.least.Passes isShouted c ↔ (isLetter (fold c) || fold c = '_') = true := by
  rw [Bool.or_eq_true, ← passes_isUpper, decide_eq_true_eq]
  constructor
  · rintro ⟨d, shouted, same⟩
    rcases Bool.or_eq_true_iff.mp shouted with capital | bar
    · exact .inl ⟨d, capital, same⟩
    · obtain rfl := of_decide_eq_true bar
      exact .inr same
  · rintro (⟨d, capital, same⟩ | bar)
    · exact ⟨d, Bool.or_eq_true_iff.mpr (.inl capital), same⟩
    · exact ⟨'_', rfl, bar⟩

theorem capitals_fold {p : List Char} :
    (p.map fold ≠ [] ∧ ∀ c ∈ p.map fold, (isLetter c || c = '_') = true) ↔ Capitals .least p := by
  simp only [Capitals, List.forall_mem_map, passes_isShouted, Ne, List.map_eq_nil_iff]

theorem lettered_fold {w : List Char} :
    (∃ l v, w.map fold = l :: v ∧ isLetter l = true ∧ Words v) ↔ Lettered .least w := by
  constructor
  · rintro ⟨l, v, cut, letter, words⟩
    obtain ⟨l, v, rfl, rfl, rfl⟩ := List.map_eq_cons_iff.mp cut
    exact ⟨l, v, rfl, passes_isUpper.mpr letter, words_fold.mp words⟩
  · rintro ⟨l, v, rfl, capital, words⟩
    exact ⟨fold l, v.map fold, rfl, passes_isUpper.mp capital, words_fold.mpr words⟩

theorem isTestName_iff_shape (s : String) : isTestName s = true ↔ Shape .least s.toList := by
  have segments : hasSegment true (s.toList.map fold) = true ↔
      Parts .least Fresh "test_".toList Words s.toList :=
    hasSegment_iff.trans ((parts_fold rfl).trans
      (parts_congr (fun _ => fresh_fold) fun _ => words_fold))
  have middles (lit : List Char) (folded : lit.map fold = lit) :
      hasMiddle lit (s.toList.map fold) = true ↔
        Parts .least (Capitals .least) lit Words s.toList :=
    hasMiddle_iff.trans ((parts_fold folded).trans
      (parts_congr (fun _ => capitals_fold) fun _ => words_fold))
  have names : hasNamed (s.toList.map fold) = true ↔
      Parts .least (fun _ => True) "test".toList (Lettered .least) s.toList :=
    hasNamed_iff.trans ((parts_fold rfl).trans
      (parts_congr (fun _ => .rfl) fun _ => lettered_fold))
  rw [isTestName, accepts, Bool.or_eq_true, Bool.or_eq_true, Bool.or_eq_true, segments,
    middles _ rfl, middles _ rfl, names, Shape]
  constructor
  · rintro (((segment | test) | case_) | named)
    · exact .inl segment
    · exact .inl test.fresh
    · exact .inr (.inl case_)
    · exact .inr (.inr named)
  · rintro (segment | case_ | named)
    · exact .inl (.inl (.inl segment))
    · exact .inl (.inr case_)
    · exact .inr named

end Matcher

/-- A name is tested for what the expression recognises, and this is the language of names of test
cases up to case. The second of the four parts of the expression recognises nothing that the first
does not. The case of ASCII letters makes no difference. -/
theorem isTestName_iff (φ : Folding) (s : String) :
    (isTestName s = true ↔ Expression.Occurs φ pattern s.toList) ∧
    (isTestName s = true ↔ ∃ cs, φ.Same s.toList cs ∧ Named cs) ∧
    (Expression.Occurs φ (shouted "_TEST_") s.toList → Expression.Occurs φ segment s.toList) ∧
    ∀ t : String, t.toList.map Char.toLower = s.toList.map Char.toLower →
      isTestName t = isTestName s := by
  have shape := (isTestName_iff_shape s).trans (shape_least (φ := φ)).symm
  refine ⟨shape.trans occurs_pattern.symm, shape.trans exists_named_iff.symm,
    occurs_segment_of_shouted, fun t same => ?_⟩
  apply isTestName_congr
  have folded := congrArg (List.map fold) same
  simpa only [List.map_map, Function.comp_def, fold_toLower] using folded

end TestName

end CodeSearch
