import CodeSearch.Proofs.Data.Numerals
import CodeSearch.Proofs.Number.Shortest

/-! # Numerals of numbers with a point

A finite number is written as a numeral that stands for its shortest decimal. The numeral has no
more whole digits than its layout allows, and never the form of an integer.
-/

namespace CodeSearch

namespace Numeral

theorem spellPlaces_of_ne {places : List Char} (some_ : places ≠ []) :
    spellPlaces places = '.' :: places := by
  obtain ⟨c, cs, rfl⟩ := List.exists_cons_of_ne_nil some_
  rfl

/-- The power of ten behind the mark. -/
def order (x : Numeral) : Int :=
  match x.exponent with
  | none => 0
  | some (negative, ds) => if negative then -(Decimal.ofDigits ds : Int) else Decimal.ofDigits ds

/-- The value of a numeral without its sign. -/
def magnitude (x : Numeral) : ℚ :=
  Decimal.ofDigits (x.whole ++ x.places) * 10 ^ (x.order - x.places.length)

end Numeral

namespace Decimal

variable {ds : List Char} {place : Int} {n : Nat}

theorem isDigit_of_mem_zeros {c : Char} (h : c ∈ zeros n) : c.isDigit = true := by
  rw [List.eq_of_mem_replicate h]
  decide

theorem ofDigits_zeros_append (n : Nat) (ds : List Char) :
    ofDigits (zeros n ++ ds) = ofDigits ds := by
  induction n with
  | zero => rfl
  | succ n ih => exact ih

theorem ofDigits_append_zeros (ds : List Char) (n : Nat) :
    ofDigits (ds ++ zeros n) = ofDigits ds * 10 ^ n := by
  induction n with
  | zero => simp [zeros]
  | succ n ih =>
    have last : zeros (n + 1) = zeros n ++ ['0'] := List.replicate_succ'
    rw [last, ← List.append_assoc, ofDigits, List.foldl_append]
    change ofDigits (ds ++ zeros n) * 10 + 0 = _
    rw [ih, pow_succ, Nat.add_zero, Nat.mul_assoc]

/-- What stands before and behind the point at a place. -/
structure Split (ds : List Char) (place : Int) (whole places : List Char) : Prop where
  text : pointed ds place = whole ++ '.' :: places
  filled : whole ≠ []
  digits : ∀ c ∈ whole ++ places, c.isDigit = true
  lead : whole.head? ≠ some '0' ∨ whole.length = 1
  value : ofDigits (whole ++ places) = ofDigits ds
  short : (whole.length : Int) ≤ max 1 place
  behind : (places.length : Int) = ds.length - place

theorem exists_split (digits : ∀ c ∈ ds, c.isDigit = true) (lead : ds.head? ≠ some '0')
    (below : place < ds.length) : ∃ whole places, Split ds place whole places := by
  by_cases before : place ≤ 0
  · refine ⟨['0'], zeros (-place).toNat ++ ds, ?_⟩
    constructor
    · simp [pointed, before]
    · exact List.cons_ne_nil _ _
    · intro c listed
      rcases List.mem_append.mp listed with first | rest
      · rw [List.mem_singleton.mp first]
        decide
      · rcases List.mem_append.mp rest with zero | digit
        · exact isDigit_of_mem_zeros zero
        · exact digits c digit
    · exact .inr rfl
    · exact ofDigits_zeros_append _ ds
    · exact le_max_left ..
    · simp only [zeros, List.length_append, List.length_replicate]
      omega
  · have some_ : 0 < place.toNat := by omega
    refine ⟨ds.take place.toNat, ds.drop place.toNat, ?_⟩
    constructor
    · simp [pointed, before]
    · intro none_
      rcases List.take_eq_nil_iff.mp none_ with zero | rfl
      · omega
      · simp at below
        omega
    · intro c listed
      rw [List.take_append_drop] at listed
      exact digits c listed
    · left
      rwa [List.head?_take, if_neg (by omega)]
    · rw [List.take_append_drop]
    · rw [List.length_take]
      omega
    · rw [List.length_drop]
      omega

/-- Something stands behind a point among the digits. -/
theorem Split.places_ne {whole places : List Char} (split : Split ds place whole places)
    (below : place < ds.length) : places ≠ [] := by
  have behind := split.behind
  rintro rfl
  rw [List.length_nil, Nat.cast_zero] at behind
  omega

end Decimal

namespace Json

open Numeral

variable {f : BinaryFormat} {w : Width} {d : Decimal} {y : Numeral} {x : Binary f}

/-- A numeral for a decimal, with a point or an exponent. -/
structure Prints (w : Width) (d : Decimal) (y : Numeral) : Prop where
  regular : y.Regular
  marked : y.places ≠ [] ∨ y.exponent ≠ none
  magnitude : y.magnitude = d.magnitude
  whole : (y.whole.length : Int) ≤ max 1 w.digits
  places : y.places.length ≤ (Decimal.digits d.coefficient).length + 5
  order : y.order = 0 ∨
    d.coefficient ≠ 0 ∧ y.order = (Decimal.digits d.coefficient).length + d.exponent - 1

/-- An exponent as it stands behind its mark. -/
def mark (e : Int) : Bool × List Char := (e < 0, Decimal.digits e.natAbs)

section Parts

variable {negative : Bool} {whole places : List Char} {power : Option Int} {place : Int}

theorem order_mark : (Numeral.mk negative whole places (power.map mark)).order = power.getD 0 := by
  cases power with
  | none => rfl
  | some e =>
    simp only [Numeral.order, Option.map_some, mark, ofDigits_digits, decide_eq_true_eq,
      Option.getD_some]
    split <;> omega

theorem regular_mark (digits : ∀ c ∈ whole ++ places, c.isDigit = true) (filled : whole ≠ [])
    (lead : whole.head? ≠ some '0' ∨ whole.length = 1) :
    (Numeral.mk negative whole places (power.map mark)).Regular := by
  constructor
  · exact fun c listed => digits c (List.mem_append_left _ listed)
  · exact filled
  · exact lead
  · exact fun c listed => digits c (List.mem_append_right _ listed)
  · intro negative' ds some_
    obtain ⟨e, -, same⟩ := Option.map_eq_some_iff.mp some_
    obtain ⟨-, rfl⟩ := Prod.mk.inj same
    exact ⟨Nat.toDigits_ne_nil, fun _ => isDigit_of_mem_digits⟩

theorem prints_zero (zero : d.coefficient = 0) :
    Prints w d ⟨negative, ['0'], ['0'], (none : Option Int).map mark⟩ := by
  constructor
  · refine regular_mark (fun c listed => ?_) (List.cons_ne_nil _ _) (.inr rfl)
    simp only [List.cons_append, List.nil_append, List.mem_cons, List.not_mem_nil, or_false,
      or_self] at listed
    exact listed ▸ rfl
  · exact .inl (List.cons_ne_nil _ _)
  · have none_ : Decimal.ofDigits (['0'] ++ ['0']) = 0 := rfl
    simp only [Numeral.magnitude, none_, Decimal.magnitude, zero, Nat.cast_zero, zero_mul]
  · exact le_max_left ..
  · change 1 ≤ _
    omega
  · exact .inl rfl

/-- Digits that are split at a place, and the power that is missing then. -/
theorem prints_split (filled : d.coefficient ≠ 0)
    (split : Decimal.Split (Decimal.digits d.coefficient) place whole places)
    (below : place < (Decimal.digits d.coefficient).length) (low : -5 ≤ place)
    (fits : place ≤ max 1 w.digits)
    (missing : power.getD 0 = (Decimal.digits d.coefficient).length + d.exponent - place)
    (alone : power = none ∨ place = 1) :
    Prints w d ⟨negative, whole, places, power.map mark⟩ := by
  have behind := split.behind
  constructor
  · exact regular_mark split.digits split.filled split.lead
  · exact .inl (split.places_ne below)
  · have exponent : power.getD 0 - places.length = d.exponent := by omega
    rw [Numeral.magnitude, order_mark]
    simp only [split.value, ofDigits_digits, exponent, Decimal.magnitude]
  · exact split.short.trans (max_le (le_max_left ..) fits)
  · simp only
    omega
  · rw [order_mark, missing]
    rcases alone with rfl | rfl
    · left
      exact missing.symm
    · exact .inr ⟨filled, rfl⟩

/-- All digits before the point, the missing zeros among them. -/
theorem prints_integer (zero : d.coefficient ≠ 0) (whole_ : 0 ≤ d.exponent)
    (fits : (Decimal.digits d.coefficient).length + d.exponent ≤ w.digits) :
    Prints w d ⟨negative, Decimal.digits d.coefficient ++ Decimal.zeros d.exponent.toNat, ['0'],
      (none : Option Int).map mark⟩ := by
  have filled : Decimal.digits d.coefficient ≠ [] := Nat.toDigits_ne_nil
  have zeros : (Decimal.zeros d.exponent.toNat).length = d.exponent.toNat :=
    List.length_replicate
  constructor
  · apply regular_mark
    · intro c listed
      simp only [List.mem_append, List.mem_singleton] at listed
      rcases listed with (digit | zero) | rfl
      · exact isDigit_of_mem_digits digit
      · exact Decimal.isDigit_of_mem_zeros zero
      · decide
    · exact List.append_ne_nil_of_left_ne_nil filled _
    · left
      intro first
      rw [List.head?_append_of_ne_nil _ filled] at first
      exact zero (head_digits first)
  · exact .inl (List.cons_ne_nil _ _)
  · have value : Decimal.ofDigits (Decimal.digits d.coefficient ++
        Decimal.zeros d.exponent.toNat ++ ['0']) = d.coefficient * 10 ^ (d.exponent.toNat + 1) := by
      have last : Decimal.zeros d.exponent.toNat ++ ['0'] = Decimal.zeros (d.exponent.toNat + 1) :=
        List.replicate_succ'.symm
      rw [List.append_assoc, last, Decimal.ofDigits_append_zeros, ofDigits_digits]
    obtain ⟨k, exponent⟩ := Int.eq_ofNat_of_zero_le whole_
    rw [Numeral.magnitude, order_mark]
    simp only [value, Decimal.magnitude]
    rw [exponent, Int.toNat_natCast, Nat.cast_mul, Nat.cast_pow, pow_succ, zpow_natCast]
    norm_num
    ring
  · refine le_max_of_le_right ?_
    rw [List.length_append, zeros]
    omega
  · change 1 ≤ _
    omega
  · exact .inl rfl

/-- One digit before the mark of an exponent. -/
theorem prints_digit {e : Int} (filled : d.coefficient ≠ 0)
    (single : (Decimal.digits d.coefficient).length = 1)
    (missing : (Decimal.digits d.coefficient).length + d.exponent - 1 = e) :
    Prints w d ⟨negative, Decimal.digits d.coefficient, [], (some e).map mark⟩ := by
  constructor
  · apply regular_mark
    · rw [List.append_nil]
      exact fun c => isDigit_of_mem_digits
    · exact Nat.toDigits_ne_nil
    · exact .inr single
  · exact .inr nofun
  · have same : e = d.exponent := by omega
    rw [Numeral.magnitude, order_mark]
    simp only [List.append_nil, ofDigits_digits, Decimal.magnitude, same, Option.getD_some,
      List.length_nil, Nat.cast_zero, sub_zero]
  · simp [single]
  · exact Nat.zero_le _
  · rw [order_mark]
    exact .inr ⟨filled, missing.symm⟩

end Parts

/-- A finite number is written as a numeral for its shortest decimal. -/
theorem real_prints (w : Width) (finite : x.isFinite = true) :
    ∃ y, real w x = y.spell ∧ Prints w (Decimal.shortest x) y := by
  unfold real
  simp only [finite, Bool.not_true, Bool.false_eq_true, if_false]
  generalize Decimal.shortest x = d
  have digits : ∀ c ∈ Decimal.digits d.coefficient, c.isDigit = true :=
    fun _ => isDigit_of_mem_digits
  have filled : 0 < (Decimal.digits d.coefficient).length := Nat.length_toDigits_pos
  have spelled : ∀ whole places (power : Option Int),
      (Numeral.mk x.negative whole places (power.map mark)).spell =
        Decimal.sign x.negative ++ (whole ++ (spellPlaces places ++
          spellExponent (power.map mark))) := fun _ _ _ => rfl
  by_cases zero : d.coefficient = 0
  · refine ⟨⟨x.negative, ['0'], ['0'], (none : Option Int).map mark⟩, ?_, ?_⟩
    · rw [if_pos zero]
      rfl
    · exact prints_zero zero
  · rw [if_neg zero]
    have lead : (Decimal.digits d.coefficient).head? ≠ some '0' := fun h => zero (head_digits h)
    by_cases integer : 0 ≤ d.exponent ∧
        (Decimal.digits d.coefficient).length + d.exponent ≤ w.digits
    · refine ⟨⟨x.negative, Decimal.digits d.coefficient ++ Decimal.zeros d.exponent.toNat, ['0'],
        (none : Option Int).map mark⟩, ?_, ?_⟩
      · rw [if_pos (by simpa using integer), spelled, List.append_assoc, List.append_assoc]
        rfl
      · exact prints_integer zero integer.1 integer.2
    · rw [if_neg (by simpa using integer)]
      by_cases positional : -5 ≤ (Decimal.digits d.coefficient).length + d.exponent ∧
          (Decimal.digits d.coefficient).length + d.exponent ≤ w.digits
      · obtain ⟨whole, places, split⟩ : ∃ whole places, Decimal.Split (Decimal.digits d.coefficient)
            ((Decimal.digits d.coefficient).length + d.exponent) whole places :=
          Decimal.exists_split digits lead (by omega)
        refine ⟨⟨x.negative, whole, places, (none : Option Int).map mark⟩, ?_, ?_⟩
        · rw [if_pos (by simpa using positional), split.text, spelled,
            spellPlaces_of_ne (split.places_ne (by omega))]
          simp [spellExponent]
        · exact prints_split zero split (by omega) positional.1 (by omega) (by simp) (.inl rfl)
      · rw [if_neg (by simpa using positional)]
        generalize missing : (Decimal.digits d.coefficient).length + d.exponent - 1 = e
        by_cases single : (Decimal.digits d.coefficient).length = 1
        · refine ⟨⟨x.negative, Decimal.digits d.coefficient, [], (some e).map mark⟩, ?_, ?_⟩
          · rw [if_pos single]
            rfl
          · exact prints_digit zero single missing
        · obtain ⟨whole, places, split⟩ : ∃ whole places, Decimal.Split
              (Decimal.digits d.coefficient) 1 whole places :=
            Decimal.exists_split digits lead (by omega)
          refine ⟨⟨x.negative, whole, places, (some e).map mark⟩, ?_, ?_⟩
          · rw [if_neg single, split.text, spelled,
              spellPlaces_of_ne (split.places_ne (by omega))]
            simp [spellExponent, mark]
          · exact prints_split zero split (by omega) (by omega) (le_max_left ..) missing.symm
              (.inr rfl)

end Json

end CodeSearch
