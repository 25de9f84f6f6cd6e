import Mathlib.Data.List.TakeWhile
import Mathlib.Data.Option.Basic
import CodeSearch.Data.Json.Printer
import CodeSearch.Data.Json.Reader

/-! # Numerals in a text

A numeral that is read on its own is read in front of anything that does not go on with it.
The digits of a natural number are such a numeral.
-/

namespace CodeSearch

namespace Numeral

/-- The places of a numeral behind a point, if there are any. -/
def spellPlaces : List Char → List Char
  | [] => []
  | ds => '.' :: ds

/-- The exponent of a numeral behind its mark, if there is one. -/
def spellExponent : Option (Bool × List Char) → List Char
  | none => []
  | some (negative, ds) => 'e' :: (Decimal.sign negative ++ ds)

/-- The text of a numeral. -/
def spell (x : Numeral) : List Char :=
  Decimal.sign x.negative ++ (x.whole ++ (spellPlaces x.places ++ spellExponent x.exponent))

/-- The parts of a numeral are digits, and no zero leads others. -/
structure Regular (x : Numeral) : Prop where
  whole : ∀ c ∈ x.whole, c.isDigit = true
  filled : x.whole ≠ []
  lead : x.whole.head? ≠ some '0' ∨ x.whole.length = 1
  places : ∀ c ∈ x.places, c.isDigit = true
  exponent : ∀ negative ds, x.exponent = some (negative, ds) →
    ds ≠ [] ∧ ∀ c ∈ ds, c.isDigit = true

end Numeral

namespace Json

variable {cs ds rest r : List Char} {c : Char} {n : Nat}

/-- No numeral goes on with this text. -/
def Stops (rest : List Char) : Prop :=
  ∀ c ∈ rest.head?, c.isDigit = false ∧ c ≠ '.' ∧ c ≠ 'e' ∧ c ≠ 'E'

theorem stops_nil : Stops [] := by simp [Stops]

theorem takeWhile_stops (stops : Stops rest) :
    (cs ++ rest).takeWhile Char.isDigit = cs.takeWhile Char.isDigit := by
  induction cs with
  | nil =>
    cases rest with
    | nil => rfl
    | cons c rest => simp [(stops c rfl).1]
  | cons c cs ih =>
    rw [List.cons_append, List.takeWhile_cons, List.takeWhile_cons, ih]

theorem dropWhile_stops (stops : Stops rest) :
    (cs ++ rest).dropWhile Char.isDigit = cs.dropWhile Char.isDigit ++ rest := by
  induction cs with
  | nil =>
    cases rest with
    | nil => rfl
    | cons c rest => simp [(stops c rfl).1]
  | cons c cs ih =>
    rw [List.cons_append, List.dropWhile_cons, List.dropWhile_cons, ih]
    split <;> rfl

theorem places_append (stops : Stops rest) (h : places cs = some (ds, r)) :
    places (cs ++ rest) = some (ds, r ++ rest) := by
  cases cs with
  | nil =>
    obtain ⟨rfl, rfl⟩ : [] = ds ∧ [] = r := by simpa [places] using h
    cases rest with
    | nil => rfl
    | cons c rest =>
      have other := (stops c rfl).2.1
      unfold places
      split
      · rename_i same
        exact absurd (List.cons.inj same).1 other
      · rfl
  | cons c cs =>
    by_cases point : c = '.'
    · subst point
      simp only [places] at h
      split at h
      · cases h
      · rename_i some_
        simp only [List.cons_append, places, takeWhile_stops stops, some_, dropWhile_stops stops]
        obtain ⟨rfl, rfl⟩ := Prod.mk.inj (Option.some.inj h)
        rfl
    · have whole : ∀ cs, places (c :: cs) = some ([], c :: cs) := by
        intro cs
        unfold places
        split
        · rename_i same
          exact absurd (List.cons.inj same).1 point
        · rfl
      rw [whole] at h
      obtain ⟨rfl, rfl⟩ := Prod.mk.inj (Option.some.inj h)
      exact whole _

theorem takeSign_append (filled : cs ≠ []) :
    Decimal.takeSign (cs ++ rest) =
      ((Decimal.takeSign cs).1, (Decimal.takeSign cs).2 ++ rest) := by
  obtain ⟨c, cs, rfl⟩ := List.exists_cons_of_ne_nil filled
  by_cases minus : c = '-'
  · subst minus
    rfl
  · by_cases plus : c = '+'
    · subst plus
      rfl
    · simp [Decimal.takeSign, minus, plus]

theorem exponent_append {power : Option (Bool × List Char)} (stops : Stops rest)
    (h : exponent cs = some (power, r)) : exponent (cs ++ rest) = some (power, r ++ rest) := by
  cases cs with
  | nil =>
    obtain ⟨rfl, rfl⟩ : none = power ∧ [] = r := by simpa [exponent] using h
    cases rest with
    | nil => rfl
    | cons c rest =>
      obtain ⟨-, -, lower, upper⟩ := stops c rfl
      simp [exponent, lower, upper]
  | cons c cs =>
    simp only [exponent, List.cons_append] at h ⊢
    split at h
    · rename_i mark
      rw [if_pos mark]
      cases cs with
      | nil => simp [Decimal.takeSign] at h
      | cons d cs =>
        rw [takeSign_append (List.cons_ne_nil d cs)]
        simp only at h ⊢
        rw [takeWhile_stops stops, dropWhile_stops stops]
        split at h
        · cases h
        · rename_i filled
          rw [if_neg filled]
          obtain ⟨rfl, rfl⟩ := Prod.mk.inj (Option.some.inj h)
          rfl
    · rename_i other
      rw [if_neg other]
      obtain ⟨rfl, rfl⟩ := Prod.mk.inj (Option.some.inj h)
      rfl

/-- The sign of a numeral. -/
def minus : List Char → Bool × List Char
  | '-' :: cs => (true, cs)
  | cs => (false, cs)

/-- A numeral behind its sign. -/
def unsigned (negative : Bool) (cs : List Char) : Option (Numeral × List Char) := do
  let whole := cs.takeWhile Char.isDigit
  guard (whole ≠ [] && (whole.head? ≠ some '0' || whole.length = 1))
  let (fraction, rest) ← places (cs.dropWhile Char.isDigit)
  let (power, rest) ← exponent rest
  some (⟨negative, whole, fraction, power⟩, rest)

theorem numeral_eq (cs : List Char) : numeral cs = unsigned (minus cs).1 (minus cs).2 := by
  rfl

theorem unsigned_eq_some {negative : Bool} {x : Numeral} :
    unsigned negative cs = some (x, r) ↔
      (cs.takeWhile Char.isDigit ≠ [] ∧ ((cs.takeWhile Char.isDigit).head? ≠ some '0' ∨
        (cs.takeWhile Char.isDigit).length = 1)) ∧ ∃ fraction mid power,
        places (cs.dropWhile Char.isDigit) = some (fraction, mid) ∧
          exponent mid = some (power, r) ∧
            x = ⟨negative, cs.takeWhile Char.isDigit, fraction, power⟩ := by
  unfold unsigned
  simp only [Option.bind_eq_bind, Option.bind_eq_some_iff]
  constructor
  · rintro ⟨_, whole, ⟨fraction, mid⟩, point, ⟨power, r'⟩, mark, same⟩
    obtain ⟨rfl, rfl⟩ := Prod.mk.inj (Option.some.inj same)
    refine ⟨?_, fraction, mid, power, point, mark, rfl⟩
    simpa using (Option.guard_eq_some' _).mp whole
  · rintro ⟨whole, fraction, mid, power, point, mark, rfl⟩
    refine ⟨(), (Option.guard_eq_some' _).mpr ?_, (fraction, mid), point, (power, r), mark, rfl⟩
    simpa using whole

theorem unsigned_append {negative : Bool} {x : Numeral} (stops : Stops rest)
    (h : unsigned negative cs = some (x, r)) :
    unsigned negative (cs ++ rest) = some (x, r ++ rest) := by
  obtain ⟨whole, fraction, mid, power, point, mark, rfl⟩ := unsigned_eq_some.mp h
  refine unsigned_eq_some.mpr ?_
  rw [takeWhile_stops stops, dropWhile_stops stops]
  exact ⟨whole, fraction, mid ++ rest, power, places_append stops point,
    exponent_append stops mark, rfl⟩

/-- A numeral starts with a minus or a digit. -/
theorem head_of_numeral {x : Numeral} (h : numeral cs = some (x, r)) :
    ∃ c tail, cs = c :: tail ∧ (c = '-' ∨ c.isDigit = true) := by
  rw [numeral_eq] at h
  obtain ⟨⟨digits, -⟩, -⟩ := unsigned_eq_some.mp h
  cases cs with
  | nil => exact absurd rfl digits
  | cons c tail =>
    refine ⟨c, tail, rfl, ?_⟩
    by_cases sign : c = '-'
    · exact .inl sign
    · right
      have same : minus (c :: tail) = (false, c :: tail) := by
        unfold minus
        split
        · rename_i other
          exact absurd (List.cons.inj other).1 sign
        · rfl
      rw [same] at digits
      cases digit : c.isDigit with
      | true => rfl
      | false => simp [digit] at digits

theorem numeral_append {x : Numeral} (stops : Stops rest) (h : numeral cs = some (x, r)) :
    numeral (cs ++ rest) = some (x, r ++ rest) := by
  obtain ⟨c, tail, rfl, -⟩ := head_of_numeral h
  rw [numeral_eq] at h ⊢
  have same : minus (c :: tail ++ rest) =
      ((minus (c :: tail)).1, (minus (c :: tail)).2 ++ rest) := by
    by_cases sign : c = '-'
    · subst sign
      rfl
    · unfold minus
      simp [sign]
  rw [same]
  exact unsigned_append stops h

/-! ## Natural numbers -/

theorem isDigit_of_mem_digits (h : c ∈ Decimal.digits n) : c.isDigit = true :=
  Nat.isDigit_of_mem_toDigits (by decide) (by decide) h

theorem ofDigits_digits (n : Nat) : Decimal.ofDigits (Decimal.digits n) = n := by
  have same : Decimal.ofDigits (Decimal.digits n) = Nat.ofDigitChars 10 (Nat.toDigits 10 n) 0 := by
    unfold Decimal.ofDigits Nat.ofDigitChars Decimal.digits
    congr
    funext m c
    rw [Decimal.push, Nat.mul_comm]
    rfl
  rw [same, Nat.ofDigitChars_ten_toDigits]

/-- Only zero is written with a zero at the start. -/
theorem head_digits (h : (Decimal.digits n).head? = some '0') : n = 0 := by
  unfold Decimal.digits at h
  induction n using Nat.strongRecOn with
  | _ n ih =>
    by_cases small : n < 10
    · rw [Nat.toDigits_of_lt_base small] at h
      have digit : ∀ m < 10, [Nat.digitChar m].head? = some '0' → m = 0 := by decide
      exact digit n small h
    · rw [Nat.toDigits_of_base_le (by decide) (by omega)] at h
      have above : (Nat.toDigits 10 (n / 10)).head? = some '0' := by
        cases digits : Nat.toDigits 10 (n / 10) with
        | nil => exact absurd digits Nat.toDigits_ne_nil
        | cons d ds => simpa [digits] using h
      have zero := ih (n / 10) (by omega) above
      omega

/-! ## Numerals as they are spelled -/

open Numeral

variable {negative : Bool} {x : Numeral}

theorem takeWhile_digits (digits : ∀ c ∈ ds, c.isDigit = true)
    (stop : rest.takeWhile Char.isDigit = []) : (ds ++ rest).takeWhile Char.isDigit = ds := by
  rw [List.takeWhile_append_of_pos digits, stop, List.append_nil]

theorem dropWhile_digits (digits : ∀ c ∈ ds, c.isDigit = true)
    (stop : rest.dropWhile Char.isDigit = rest) :
    (ds ++ rest).dropWhile Char.isDigit = rest := by
  rw [List.dropWhile_append_of_pos digits, stop]

theorem ne_of_isDigit (digit : c.isDigit = true) : c ≠ '-' ∧ c ≠ '+' := by
  constructor
  all_goals
    rintro rfl
    exact absurd digit (by decide)

theorem minus_sign (filled : ds ≠ []) (digits : ∀ c ∈ ds, c.isDigit = true) :
    minus (Decimal.sign negative ++ (ds ++ rest)) = (negative, ds ++ rest) := by
  cases negative with
  | true => rfl
  | false =>
    obtain ⟨c, tail, rfl⟩ := List.exists_cons_of_ne_nil filled
    have other := (ne_of_isDigit (digits c List.mem_cons_self)).1
    simp [minus, Decimal.sign, other]

theorem takeSign_sign (filled : ds ≠ []) (digits : ∀ c ∈ ds, c.isDigit = true) :
    Decimal.takeSign (Decimal.sign negative ++ ds) = (negative, ds) := by
  cases negative with
  | true => rfl
  | false =>
    obtain ⟨c, tail, rfl⟩ := List.exists_cons_of_ne_nil filled
    obtain ⟨minus, plus⟩ := ne_of_isDigit (digits c List.mem_cons_self)
    simp [Decimal.takeSign, Decimal.sign, minus, plus]

theorem exponent_spell (regular : x.Regular) :
    exponent (spellExponent x.exponent) = some (x.exponent, []) := by
  cases power : x.exponent with
  | none => rfl
  | some e =>
    obtain ⟨negative, ds⟩ := e
    obtain ⟨filled, digits⟩ := regular.exponent negative ds power
    have all := List.takeWhile_eq_self_iff.mpr digits
    have none_ := List.dropWhile_eq_nil_iff.mpr digits
    simp [spellExponent, exponent, takeSign_sign filled digits, all, none_, filled]

theorem stops_spellExponent (e : Option (Bool × List Char)) :
    (spellExponent e).takeWhile Char.isDigit = [] ∧
      (spellExponent e).dropWhile Char.isDigit = spellExponent e := by
  have mark : Char.isDigit 'e' = false := by decide
  rcases e with _ | ⟨negative, ds⟩
  · exact ⟨rfl, rfl⟩
  · simp [spellExponent, mark]

theorem places_spell (regular : x.Regular) :
    places (spellPlaces x.places ++ spellExponent x.exponent) =
      some (x.places, spellExponent x.exponent) := by
  obtain ⟨take, drop⟩ := stops_spellExponent x.exponent
  cases digits : x.places with
  | nil =>
    rcases x.exponent with _ | ⟨negative, ds⟩ <;> rfl
  | cons d ds =>
    have inside := regular.places
    rw [digits] at inside
    have taken := takeWhile_digits inside take
    have dropped := dropWhile_digits inside drop
    simp only [spellPlaces, List.cons_append] at taken dropped ⊢
    simp [places, taken, dropped]

/-- A numeral is read from its text. -/
theorem numeral_spell (regular : x.Regular) : numeral x.spell = some (x, []) := by
  have mark : Char.isDigit '.' = false := by decide
  have stop : (spellPlaces x.places ++ spellExponent x.exponent).takeWhile Char.isDigit = [] ∧
      (spellPlaces x.places ++ spellExponent x.exponent).dropWhile Char.isDigit =
        spellPlaces x.places ++ spellExponent x.exponent := by
    cases x.places with
    | nil => exact stops_spellExponent x.exponent
    | cons d ds => simp [spellPlaces, mark]
  rw [numeral_eq, spell, minus_sign regular.filled regular.whole]
  refine unsigned_eq_some.mpr ?_
  rw [takeWhile_digits regular.whole stop.1, dropWhile_digits regular.whole stop.2]
  exact ⟨⟨regular.filled, regular.lead⟩, x.places, _, x.exponent, places_spell regular,
    exponent_spell regular, rfl⟩

theorem lead_digits (n : Nat) :
    (Decimal.digits n).head? ≠ some '0' ∨ (Decimal.digits n).length = 1 := by
  by_cases zero : n = 0
  · subst zero
    exact .inr rfl
  · exact .inl fun h => zero (head_digits h)

theorem numeral_digits (negative : Bool) (n : Nat) :
    numeral (Decimal.sign negative ++ Decimal.digits n) =
      some (⟨negative, Decimal.digits n, [], none⟩, []) := by
  have read := numeral_spell (x := ⟨negative, Decimal.digits n, [], none⟩)
    ⟨fun _ => isDigit_of_mem_digits, Nat.toDigits_ne_nil, lead_digits n, nofun, nofun⟩
  simpa [spell, spellPlaces, spellExponent] using read

end Json

end CodeSearch
