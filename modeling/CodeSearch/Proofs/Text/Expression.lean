import CodeSearch.Text.Letter
import CodeSearch.Text.Word

/-! # Regular expressions without case

An expression matches pieces of a text. Whether it does may depend on what is before and after the
piece, since it may ask for the start or the end of the text. Characters are compared as a folding of
case takes them, of which all that matters here is what it takes to ASCII letters.
-/

namespace CodeSearch

namespace Text

/-! ## Folding -/

/-- An ASCII letter or an underscore. -/
def isPlain (c : Char) : Bool := c.isAlpha || c = '_'

theorem isUpper_iff {c : Char} : c.isUpper = true ↔ 65 ≤ c.toNat ∧ c.toNat ≤ 90 :=
  decide_eq_true_iff.trans (and_congr UInt32.le_iff_toNat_le UInt32.le_iff_toNat_le)

theorem toLower_of_not_isUpper {c : Char} (other : c.isUpper = false) : c.toLower = c := by
  have outside : ¬ (c.val ≥ 'A'.val ∧ c.val ≤ 'Z'.val) := of_decide_eq_false other
  exact dif_neg outside

/-- What holds of the characters of a run one by one holds of all of them. -/
theorem forall_between (holds : Char → Prop) (low n : Nat)
    (each : ∀ i < n, holds (Char.ofNat (low + i))) {c : Char} (above : low ≤ c.toNat)
    (below : c.toNat < low + n) : holds c := by
  have same : Char.ofNat (low + (c.toNat - low)) = c := by
    rw [Nat.add_sub_cancel' above, Char.ofNat_toNat]
  exact same ▸ each (c.toNat - low) (by omega)

theorem forall_isUpper (holds : Char → Prop) (each : ∀ i < 26, holds (Char.ofNat (65 + i)))
    {c : Char} (upper : c.isUpper = true) : holds c := by
  obtain ⟨above, below⟩ := isUpper_iff.mp upper
  exact forall_between holds 65 26 each above (by omega)

theorem fold_toLower (c : Char) : fold c.toLower = fold c := by
  cases upper : c.isUpper with
  | false => rw [toLower_of_not_isUpper upper]
  | true => exact forall_isUpper (fun c => fold c.toLower = fold c) (by decide) upper

theorem fold_eq_bar {c : Char} : fold c = fold '_' ↔ c = '_' := by
  constructor
  · intro bar
    unfold fold at bar
    split at bar
    · cases bar
    · split at bar
      · cases bar
      · cases upper : c.isUpper with
        | false => rwa [toLower_of_not_isUpper upper] at bar
        | true =>
          have other := forall_isUpper (fun c => c.toLower ≠ '_') (by decide) upper
          exact absurd bar other
  · rintro rfl
    rfl

theorem isWord_fold (c : Char) : isWord (fold c) = isWord c := by
  unfold fold
  split
  · rename_i long
    subst long
    decide +kernel
  · split
    · rename_i kelvin
      subst kelvin
      decide +kernel
    · cases upper : c.isUpper with
      | false => rw [toLower_of_not_isUpper upper]
      | true => exact forall_isUpper (fun c => isWord c.toLower = isWord c) (by decide +kernel) upper

/-- A folding of case. It takes to a letter of ASCII what simple folding takes to it, and leaves word
characters word characters. -/
structure Folding where
  fold : Char → Char
  eq_iff {c d : Char} (plain : isPlain d = true) : fold c = fold d ↔ Text.fold c = Text.fold d
  isWord_congr {c d : Char} (same : fold c = fold d) : isWord c = isWord d

/-- The folding that changes nothing but what it must. -/
def Folding.least : Folding where
  fold := Text.fold
  eq_iff _ := .rfl
  isWord_congr {c d} same := by rw [← isWord_fold c, same, isWord_fold d]

namespace Folding

variable (φ : Folding)

/-- Whether a character is, up to case, one of those that pass a test. -/
def Passes (p : Char → Bool) (c : Char) : Prop := ∃ d, p d = true ∧ φ.fold c = φ.fold d

theorem passes_isWord {c : Char} : φ.Passes isWord c ↔ isWord c = true := by
  constructor
  · rintro ⟨d, word, same⟩
    rwa [φ.isWord_congr same]
  · intro word
    exact ⟨c, word, rfl⟩

/-- Of ASCII letters and underscores all foldings say the same. -/
theorem passes_iff {p : Char → Bool} (plain : ∀ d, p d = true → isPlain d = true) {c : Char} :
    φ.Passes p c ↔ least.Passes p c := by
  constructor
  · rintro ⟨d, passes, same⟩
    exact ⟨d, passes, (φ.eq_iff (plain d passes)).mp same⟩
  · rintro ⟨d, passes, same⟩
    exact ⟨d, passes, (φ.eq_iff (plain d passes)).mpr same⟩

/-- Only an underscore is one up to case. -/
theorem eq_bar {c : Char} : φ.fold c = φ.fold '_' ↔ c = '_' :=
  (φ.eq_iff (by decide)).trans fold_eq_bar

/-- Two texts that are the same up to case. -/
def Same (cs ds : List Char) : Prop := cs.map φ.fold = ds.map φ.fold

instance (cs ds : List Char) : Decidable (φ.Same cs ds) := inferInstanceAs (Decidable (_ = _))

variable {φ}

theorem Same.symm {cs ds : List Char} (same : φ.Same cs ds) : φ.Same ds cs := Eq.symm same

theorem Same.append {as bs cs ds : List Char} (left : φ.Same as cs) (right : φ.Same bs ds) :
    φ.Same (as ++ bs) (cs ++ ds) := by
  rw [Same, List.map_append, List.map_append, left, right]

theorem same_append {as bs cs : List Char} :
    φ.Same cs (as ++ bs) ↔ ∃ as' bs', cs = as' ++ bs' ∧ φ.Same as' as ∧ φ.Same bs' bs := by
  rw [Same, List.map_append, List.map_eq_append_iff]
  exact .rfl

theorem same_cons {cs ds : List Char} {d : Char} :
    φ.Same cs (d :: ds) ↔ ∃ c cs', cs = c :: cs' ∧ φ.fold c = φ.fold d ∧ φ.Same cs' ds := by
  rw [Same, List.map_cons, List.map_eq_cons_iff]
  exact .rfl

theorem same_nil {cs : List Char} : φ.Same cs [] ↔ cs = [] := List.map_eq_nil_iff

/-- A text in ASCII letters and underscores is the same up to any folding. -/
theorem same_iff {cs ds : List Char} (plain : ds.all isPlain = true) :
    φ.Same cs ds ↔ least.Same cs ds := by
  induction ds generalizing cs with
  | nil => rw [same_nil, same_nil]
  | cons d ds ih =>
    obtain ⟨first, rest⟩ := Bool.and_eq_true_iff.mp plain
    rw [same_cons, same_cons]
    simp only [φ.eq_iff first, ih rest]
    exact .rfl

/-- Where all characters pass a test up to case, they are those of a text that passes it. -/
theorem exists_same {p : Char → Bool} {cs : List Char} :
    (∀ c ∈ cs, φ.Passes p c) ↔ ∃ ds, (∀ d ∈ ds, p d = true) ∧ φ.Same cs ds := by
  induction cs with
  | nil =>
    constructor
    · intro _
      exact ⟨[], nofun, rfl⟩
    · intro _ c listed
      cases listed
  | cons c cs ih =>
    rw [List.forall_mem_cons, ih]
    constructor
    · rintro ⟨⟨d, passes, first⟩, ds, all, rest⟩
      exact ⟨d :: ds, List.forall_mem_cons.mpr ⟨passes, all⟩,
        same_cons.mpr ⟨c, cs, rfl, first, rest⟩⟩
    · rintro ⟨_ | ⟨d, ds⟩, all, same⟩
      · cases same
      · obtain ⟨passes, rest⟩ := List.forall_mem_cons.mp all
        obtain ⟨_, _, cut, first, same⟩ := same_cons.mp same
        cases cut
        exact ⟨⟨d, passes, first⟩, ds, rest, same⟩

end Folding

/-! ## Expressions -/

/-- What a piece of a text may be asked for. -/
inductive Expression where
  | empty
  /-- The start of the text. -/
  | start
  /-- The end of the text. -/
  | stop
  /-- One of the characters that pass a test. -/
  | one (p : Char → Bool)
  | cat (e f : Expression)
  | alt (e f : Expression)
  /-- Any number of pieces one after the other. -/
  | many (e : Expression)

namespace Expression

/-- At least one piece. -/
def some (e : Expression) : Expression := cat e (many e)

/-- The characters of a text, one after the other. -/
def word (cs : List Char) : Expression := cs.foldr (fun c e => cat (one (· = c)) e) empty

/-- How an expression matches a piece that stands between two others. -/
inductive Matches (φ : Folding) : Expression → List Char → List Char → List Char → Prop
  | empty {before after} : Matches φ empty before [] after
  | start {after} : Matches φ start [] [] after
  | stop {before} : Matches φ stop before [] []
  | one {p c before after} (passes : φ.Passes p c) : Matches φ (one p) before [c] after
  | cat {e f before xs ys after} (first : Matches φ e before xs (ys ++ after))
      (second : Matches φ f (before ++ xs) ys after) : Matches φ (cat e f) before (xs ++ ys) after
  | left {e f before xs after} (first : Matches φ e before xs after) :
      Matches φ (alt e f) before xs after
  | right {e f before xs after} (second : Matches φ f before xs after) :
      Matches φ (alt e f) before xs after
  | done {e before after} : Matches φ (many e) before [] after
  | more {e before xs ys after} (first : Matches φ e before xs (ys ++ after))
      (rest : Matches φ (many e) (before ++ xs) ys after) : Matches φ (many e) before (xs ++ ys) after

/-- An expression matches some piece of a text. -/
def Occurs (φ : Folding) (e : Expression) (cs : List Char) : Prop :=
  ∃ before xs after, cs = before ++ xs ++ after ∧ Matches φ e before xs after

variable {φ : Folding} {e f : Expression} {p : Char → Bool} {before xs after : List Char}

theorem matches_empty : Matches φ empty before xs after ↔ xs = [] := by
  constructor
  · rintro ⟨⟩
    rfl
  · rintro rfl
    exact .empty

theorem matches_start : Matches φ start before xs after ↔ before = [] ∧ xs = [] := by
  constructor
  · rintro ⟨⟩
    exact ⟨rfl, rfl⟩
  · rintro ⟨rfl, rfl⟩
    exact .start

theorem matches_stop : Matches φ stop before xs after ↔ xs = [] ∧ after = [] := by
  constructor
  · rintro ⟨⟩
    exact ⟨rfl, rfl⟩
  · rintro ⟨rfl, rfl⟩
    exact .stop

theorem matches_one : Matches φ (one p) before xs after ↔ ∃ c, xs = [c] ∧ φ.Passes p c := by
  constructor
  · rintro ⟨⟩
    rename_i c passes
    exact ⟨c, rfl, passes⟩
  · rintro ⟨c, rfl, passes⟩
    exact .one passes

theorem matches_cat : Matches φ (cat e f) before xs after ↔ ∃ ys zs, xs = ys ++ zs ∧
    Matches φ e before ys (zs ++ after) ∧ Matches φ f (before ++ ys) zs after := by
  constructor
  · rintro ⟨⟩
    rename_i ys zs first second
    exact ⟨ys, zs, rfl, first, second⟩
  · rintro ⟨ys, zs, rfl, first, second⟩
    exact .cat first second

theorem matches_alt : Matches φ (alt e f) before xs after ↔
    Matches φ e before xs after ∨ Matches φ f before xs after := by
  constructor
  · intro matched
    cases matched with
    | left first => exact .inl first
    | right second => exact .inr second
  · rintro (first | second)
    · exact .left first
    · exact .right second

/-- Any number of characters of a class. -/
theorem matches_many_one :
    Matches φ (many (one p)) before xs after ↔ ∀ c ∈ xs, φ.Passes p c := by
  constructor
  · generalize whole : many (one p) = e
    intro matched
    induction matched with
    | done => exact nofun
    | more first rest _ ih =>
      cases whole
      obtain ⟨c, rfl, passes⟩ := matches_one.mp first
      exact List.forall_mem_cons.mpr ⟨passes, ih rfl⟩
    | _ => cases whole
  · intro all
    induction xs generalizing before with
    | nil => exact .done
    | cons c xs ih =>
      obtain ⟨passes, rest⟩ := List.forall_mem_cons.mp all
      exact .more (.one passes) (ih rest)

theorem matches_some_one :
    Matches φ (some (one p)) before xs after ↔ xs ≠ [] ∧ ∀ c ∈ xs, φ.Passes p c := by
  rw [some, matches_cat]
  constructor
  · rintro ⟨ys, zs, rfl, first, rest⟩
    obtain ⟨c, rfl, passes⟩ := matches_one.mp first
    exact ⟨List.cons_ne_nil _ _, List.forall_mem_cons.mpr ⟨passes, matches_many_one.mp rest⟩⟩
  · rintro ⟨nonempty, all⟩
    obtain ⟨c, rest, rfl⟩ := List.exists_cons_of_ne_nil nonempty
    obtain ⟨passes, all⟩ := List.forall_mem_cons.mp all
    exact ⟨[c], rest, rfl, .one passes, matches_many_one.mpr all⟩

/-- The characters of a text match the text up to case. -/
theorem matches_word {cs : List Char} : Matches φ (word cs) before xs after ↔ φ.Same xs cs := by
  induction cs generalizing before xs with
  | nil => rw [word, List.foldr_nil, matches_empty, Folding.same_nil]
  | cons c cs ih =>
    rw [word, List.foldr_cons, ← word, matches_cat, Folding.same_cons]
    constructor
    · rintro ⟨ys, zs, rfl, first, rest⟩
      obtain ⟨d, rfl, _, same, passes⟩ := matches_one.mp first
      obtain rfl := of_decide_eq_true same
      exact ⟨d, zs, rfl, passes, ih.mp rest⟩
    · rintro ⟨d, zs, rfl, passes, rest⟩
      exact ⟨[d], zs, rfl, .one ⟨c, decide_eq_true rfl, passes⟩, ih.mpr rest⟩

theorem occurs_alt : Occurs φ (alt e f) xs ↔ Occurs φ e xs ∨ Occurs φ f xs := by
  simp only [Occurs, matches_alt, and_or_left, exists_or]

end Expression

end Text

end CodeSearch
