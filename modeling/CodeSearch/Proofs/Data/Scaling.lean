import CodeSearch.Data.Numeral
import CodeSearch.Proofs.Data.Reals

/-! # Reading numbers in steps

The steps in which a numeral is read as a double never take up more than it stands for, and each
rounding keeps the order. So a numeral that lies clearly below the greatest number of single
precision is read as a finite number of that precision.
-/

namespace CodeSearch

namespace Numeral

variable {n m : Nat} {cs rest : List Char} {c : Char} {e : Int} {x : Numeral}

/-! ## Taking digits -/

theorem push_lt (digit : c.isDigit = true) : Decimal.push n c < (n + 1) * 10 := by
  have below : c.toNat ≤ 57 := by
    simp only [Char.isDigit, Bool.and_eq_true, decide_eq_true_eq] at digit
    exact digit.2
  unfold Decimal.push
  omega

theorem foldl_push_lt (digits : ∀ c ∈ cs, c.isDigit = true) :
    cs.foldl Decimal.push n < (n + 1) * 10 ^ cs.length := by
  induction cs generalizing n with
  | nil => simp
  | cons c cs ih =>
    obtain ⟨first, others⟩ := List.forall_mem_cons.mp digits
    have step : Decimal.push n c + 1 ≤ (n + 1) * 10 := push_lt first
    calc (c :: cs).foldl Decimal.push n
        = cs.foldl Decimal.push (Decimal.push n c) := rfl
      _ < (Decimal.push n c + 1) * 10 ^ cs.length := ih others
      _ ≤ (n + 1) * 10 * 10 ^ cs.length := Nat.mul_le_mul_right _ step
      _ = (n + 1) * 10 ^ (c :: cs).length := by
        rw [List.length_cons, pow_succ', Nat.mul_assoc]

theorem le_foldl_push (n : Nat) (cs : List Char) :
    n * 10 ^ cs.length ≤ cs.foldl Decimal.push n := by
  induction cs generalizing n with
  | nil => simp
  | cons c cs ih =>
    have step : n * 10 ≤ Decimal.push n c := Nat.le_add_right ..
    calc n * 10 ^ (c :: cs).length
        = n * 10 * 10 ^ cs.length := by rw [List.length_cons, pow_succ', Nat.mul_assoc]
      _ ≤ Decimal.push n c * 10 ^ cs.length := Nat.mul_le_mul_right _ step
      _ ≤ cs.foldl Decimal.push (Decimal.push n c) := ih _

/-- All digits are taken if any number of so many digits fits a word. -/
theorem absorb_all (digits : ∀ c ∈ cs, c.isDigit = true)
    (fits : (n + 1) * 10 ^ cs.length ≤ wordSize) :
    absorb n cs = (cs.foldl Decimal.push n, []) := by
  induction cs generalizing n with
  | nil => rfl
  | cons c cs ih =>
    obtain ⟨first, others⟩ := List.forall_mem_cons.mp digits
    have step : Decimal.push n c + 1 ≤ (n + 1) * 10 := push_lt first
    have rest : (Decimal.push n c + 1) * 10 ^ cs.length ≤ wordSize := by
      rw [List.length_cons, pow_succ', ← Nat.mul_assoc] at fits
      exact (Nat.mul_le_mul_right _ step).trans fits
    have filled : 0 < 10 ^ cs.length := by positivity
    have here : Decimal.push n c < wordSize :=
      Nat.lt_of_lt_of_le (Nat.lt_succ_self _) ((Nat.le_mul_of_pos_right _ filled).trans rest)
    rw [absorb, if_pos here]
    exact ih others rest

/-- The digits that are taken come first. -/
theorem absorb_cases (word : n < wordSize) (done : absorb n cs = (m, rest)) :
    m < wordSize ∧ ∃ taken, cs = taken ++ rest ∧ m = taken.foldl Decimal.push n := by
  induction cs generalizing n with
  | nil =>
    obtain ⟨rfl, rfl⟩ := Prod.mk.inj done
    exact ⟨word, [], rfl, rfl⟩
  | cons c cs ih =>
    rw [absorb] at done
    split at done
    · rename_i fits
      obtain ⟨word', taken, rfl, rfl⟩ := ih fits done
      exact ⟨word', c :: taken, rfl, rfl⟩
    · obtain ⟨rfl, rfl⟩ := Prod.mk.inj done
      exact ⟨word, [], rfl, rfl⟩

/-- The significand and its power never make more than the numeral. -/
theorem scaled_le (digits : ∀ c ∈ x.whole, c.isDigit = true)
    (short : 10 ^ x.whole.length ≤ wordSize) : x.scaled.significand < wordSize ∧
      (x.scaled.significand * 10 ^ (x.scaled.exponent + x.order) : ℚ) ≤ x.magnitude ∧
        -(x.places.length : Int) ≤ x.scaled.exponent ∧ x.scaled.exponent ≤ 0 := by
  have all : absorb 0 x.whole = (Decimal.ofDigits x.whole, []) :=
    absorb_all digits (by rwa [Nat.zero_add, Nat.one_mul])
  have word : Decimal.ofDigits x.whole < wordSize := by
    refine Nat.lt_of_lt_of_le (foldl_push_lt digits) ?_
    rwa [Nat.zero_add, Nat.one_mul]
  rcases taken_ : absorb (Decimal.ofDigits x.whole) x.places with ⟨m, dropped⟩
  have scaled_eq : x.scaled = ⟨m, 0 - ((x.places.length : Int) - dropped.length)⟩ := by
    unfold scaled
    simp only [all, taken_, List.length_nil, Nat.cast_zero]
  obtain ⟨word', taken, split, sum⟩ := absorb_cases word taken_
  have whole : m * 10 ^ dropped.length ≤ Decimal.ofDigits (x.whole ++ x.places) := by
    refine (le_foldl_push m dropped).trans (le_of_eq ?_)
    rw [sum, split]
    simp only [Decimal.ofDigits, List.foldl_append]
  have lengths : x.places.length = taken.length + dropped.length := by
    rw [split, List.length_append]
  rw [scaled_eq]
  refine ⟨word', ?_, ?_, ?_⟩
  · have ten : (10 : ℚ) ≠ 0 := by norm_num
    have power : (0 : ℚ) ≤ 10 ^ (x.order - x.places.length) := by positivity
    have exponent : 0 - ((x.places.length : Int) - dropped.length) + x.order =
        dropped.length + (x.order - x.places.length) := by omega
    calc (m * 10 ^ (0 - ((x.places.length : Int) - dropped.length) + x.order) : ℚ)
        = (m * 10 ^ dropped.length : Nat) * 10 ^ (x.order - x.places.length) := by
          rw [exponent, zpow_add₀ ten, zpow_natCast]
          push_cast
          ring
      _ ≤ x.magnitude := mul_le_mul_of_nonneg_right (by exact_mod_cast whole) power
  · change _ ≤ 0 - ((x.places.length : Int) - dropped.length)
    omega
  · change 0 - ((x.places.length : Int) - dropped.length) ≤ 0
    omega

/-- How a numeral is read that has no huge exponent. -/
theorem toDouble_eq (small : x.order.natAbs < exponentBound) : x.toDouble =
    (scale 4 (Binary.ofNat x.scaled.significand) (x.scaled.exponent + x.order)).map
      fun y => if x.negative then y.neg else y := by
  unfold toDouble Scaled.toDouble
  unfold order at small ⊢
  cases power : x.exponent with
  | none => simp
  | some mark =>
    obtain ⟨negative, ds⟩ := mark
    simp only [power] at small
    have fits : Decimal.ofDigits ds < exponentBound := by
      cases negative <;> simpa using small
    simp only [if_neg (Nat.not_le.mpr fits)]
    cases negative <;> rfl

/-! ## Scaling -/

variable {k : Nat}

/-- The middle between the two greatest finite numbers of single precision. -/
def crest : Nat := (2 ^ 25 - 3) * 2 ^ 103

/-- The code of the greatest double that is finite in single precision. -/
def tame : Nat :=
  BinaryFormat.double.nearest ((2 ^ 25 - 1) * 2 ^ 103 * BinaryFormat.double.one) 1 - 1

/-- The greatest tame double is finite in both precisions. -/
theorem tame_finite : tame < BinaryFormat.double.infinity ∧
    BinaryFormat.single.nearest
      (BinaryFormat.double.units tame * BinaryFormat.single.one) BinaryFormat.double.one <
        BinaryFormat.single.infinity := by decide +kernel

theorem tame_lt : tame < BinaryFormat.double.infinity := tame_finite.1

theorem convert_isFinite {y : Double} (low : y.code ≤ tame) :
    (y.convert : Single).isFinite = true := by
  have code := Binary.code_convert (g := .single) (low.trans_lt tame_lt)
  have pos := BinaryFormat.one_pos .double
  have order := BinaryFormat.nearest_mono (f := .single) (by decide) pos pos
    (Nat.mul_le_mul_right _ (Nat.mul_le_mul_right BinaryFormat.single.one
      (BinaryFormat.units_mono .double low)))
  rw [Binary.isFinite, decide_eq_true_eq, code]
  exact order.trans_lt tame_finite.2

theorem code_ofNat_mono (le : n ≤ m) :
    (Binary.ofNat n : Double).code ≤ (Binary.ofNat m : Double).code := by
  rw [Binary.code_ofNat, Binary.code_ofNat]
  exact BinaryFormat.nearest_mono (by decide) Nat.one_pos Nat.one_pos
    (Nat.mul_le_mul_right 1 (Nat.mul_le_mul_right _ le))

theorem code_power_mono (le : n ≤ m) : (power n).code ≤ (power m).code :=
  code_ofNat_mono (Nat.pow_le_pow_right (by decide) le)

/-- The least power of ten is one, and the greatest in use is finite. -/
theorem power_ends : BinaryFormat.double.units (power 0).code = BinaryFormat.double.one ∧
    (power 308).code < BinaryFormat.double.infinity := by decide +kernel

theorem power_finite (fits : k ≤ 308) : (power k).code < BinaryFormat.double.infinity :=
  (code_power_mono fits).trans_lt power_ends.2

theorem code_word (word : m < wordSize) :
    (Binary.ofNat m : Double).code < BinaryFormat.double.infinity := by
  have short : wordSize ≤ 10 ^ 20 := by decide
  exact (code_ofNat_mono (word.le.trans short)).trans_lt (power_finite (k := 20) (by decide))

/-- A power of ten is not below one. -/
theorem one_le_power (k : Nat) :
    BinaryFormat.double.one ≤ BinaryFormat.double.units (power k).code := by
  rw [← power_ends.1]
  exact BinaryFormat.units_mono .double (code_power_mono (Nat.zero_le k))

/-- Where a word and the middle are rounded to at most. -/
theorem tops_tame : BinaryFormat.double.nearest (BinaryFormat.double.units
      (Binary.ofNat wordSize : Double).code * BinaryFormat.double.one) BinaryFormat.double.one ≤
        tame ∧
    BinaryFormat.double.nearest
      (crest * BinaryFormat.double.one * BinaryFormat.double.one * ((2 ^ 53 + 1) * (2 ^ 53 + 1)))
        (2 ^ 53 * 2 ^ 53 * BinaryFormat.double.one) ≤ tame := by decide +kernel

/-- A word divided by a power of ten. -/
theorem code_div_power (word : m < wordSize) (fits : k ≤ 308) :
    (Binary.ofNat m / power k).code ≤ tame := by
  have filled : 0 < (power k).code := by
    refine Nat.pos_of_ne_zero fun zero => ?_
    have low := one_le_power k
    rw [zero, BinaryFormat.units_of_lt (by decide)] at low
    exact absurd low (Nat.not_le.mpr (BinaryFormat.one_pos _))
  rw [Binary.code_div (code_word word) (power_finite fits) filled]
  refine le_trans (BinaryFormat.nearest_mono (by decide) ?_ (BinaryFormat.one_pos _) ?_) tops_tame.1
  · exact (BinaryFormat.one_pos _).trans_le (one_le_power k)
  · exact Nat.mul_le_mul
      (Nat.mul_le_mul_right _ (BinaryFormat.units_mono _ (code_ofNat_mono word.le)))
      (one_le_power k)

/-- A natural number grows little when it is rounded. -/
theorem units_ofNat_le (n : Nat) :
    BinaryFormat.double.units (Binary.ofNat n : Double).code * 2 ^ 53 ≤
      n * BinaryFormat.double.one * (2 ^ 53 + 1) := by
  rw [Binary.code_ofNat]
  exact BinaryFormat.units_nearest_le (by decide) _

/-- A word times a power of ten, below the middle. Each of the three roundings adds little. -/
theorem code_mul_power (word : m < wordSize) (fits : k ≤ 308) (bound : m * 10 ^ k ≤ crest) :
    (Binary.ofNat m * power k).code ≤ tame := by
  have first := units_ofNat_le m
  have second := units_ofNat_le (10 ^ k)
  have one := BinaryFormat.one_pos .double
  rw [Binary.code_mul (code_word word) (power_finite fits)]
  refine le_trans (BinaryFormat.nearest_mono (by decide) one (Nat.mul_pos (by decide) one) ?_)
    tops_tame.2
  change _ * BinaryFormat.double.units (Binary.ofNat (10 ^ k) : Double).code * _ ≤ _
  generalize BinaryFormat.double.units (Binary.ofNat m : Double).code = a at first ⊢
  generalize BinaryFormat.double.units (Binary.ofNat (10 ^ k) : Double).code = b at second ⊢
  generalize BinaryFormat.double.one = u at first second ⊢
  calc a * b * (2 ^ 53 * 2 ^ 53 * u)
      = a * 2 ^ 53 * (b * 2 ^ 53) * u := by ring
    _ ≤ m * u * (2 ^ 53 + 1) * (10 ^ k * u * (2 ^ 53 + 1)) * u :=
      Nat.mul_le_mul_right u (Nat.mul_le_mul first second)
    _ = m * 10 ^ k * (u * u * ((2 ^ 53 + 1) * (2 ^ 53 + 1)) * u) := by ring
    _ ≤ crest * (u * u * ((2 ^ 53 + 1) * (2 ^ 53 + 1)) * u) := Nat.mul_le_mul_right _ bound
    _ = crest * u * u * ((2 ^ 53 + 1) * (2 ^ 53 + 1)) * u := by ring

/-- What is below the middle is scaled to a double that is finite in single precision. -/
theorem scale_tame (word : m < wordSize) (low : -308 ≤ e) (high : e ≤ 308)
    (bound : (m * 10 ^ e : ℚ) ≤ crest) :
    ∃ y, scale 4 (Binary.ofNat m) e = some y ∧ y.code ≤ tame := by
  by_cases negative : e < 0
  · refine ⟨Binary.ofNat m / power (-e).toNat, ?_, code_div_power word (by omega)⟩
    rw [scale, if_pos (by simp [greatest, low, negative])]
  · obtain ⟨k, rfl⟩ := Int.eq_ofNat_of_zero_le (not_lt.mp negative)
    have whole : m * 10 ^ k ≤ crest := by
      rw [zpow_natCast] at bound
      exact_mod_cast bound
    have code := code_mul_power word (by omega) whole
    have finite := Binary.isInfinite_of_lt (code.trans_lt tame_lt)
    refine ⟨Binary.ofNat m * power k, ?_, code⟩
    rw [scale, if_neg (by simp), if_pos (by simp [greatest, high])]
    simp only [Int.toNat_natCast, finite, Bool.false_eq_true, if_false]

/-- A numeral below the middle is read as a finite number of single precision. -/
theorem single?_of_le_crest (digits : ∀ c ∈ x.whole, c.isDigit = true)
    (short : 10 ^ x.whole.length ≤ wordSize) (marked : x.places ≠ [] ∨ x.exponent ≠ none)
    (low : -308 ≤ x.order - x.places.length) (high : x.order ≤ 308)
    (bound : x.magnitude ≤ crest) : ∃ y, x.value.single? = some y ∧ y.isFinite = true := by
  obtain ⟨word, below, places, whole⟩ := scaled_le digits short
  obtain ⟨y, scaled, code⟩ := scale_tame word (e := x.scaled.exponent + x.order) (by omega)
    (by omega) (below.trans bound)
  have real : x.isWord = false := by
    unfold isWord
    rcases marked with some_ | some_
    · simp [some_]
    · simp [some_]
  have small : x.order.natAbs < exponentBound := by
    have large : 309 ≤ exponentBound := by decide
    omega
  have read := toDouble_eq small
  rw [scaled, Option.map_some] at read
  have value : x.value = .real (if x.negative then y.neg else y) := by
    unfold Numeral.value
    simp only [real, Bool.false_and, Bool.false_eq_true, if_false, read]
  rw [value]
  refine ⟨_, rfl, convert_isFinite ?_⟩
  split
  · exact code
  · exact code

end Numeral

end CodeSearch
