import Mathlib.Algebra.Order.Ring.Nat
import Mathlib.Order.Monotone.Basic
import Mathlib.Tactic.Linarith
import Mathlib.Tactic.Ring
import CodeSearch.Number.Binary

/-! # Rounding keeps the order

A greater ratio is never rounded to a smaller code, and a greater code has no fewer units. So what
holds of the results for the greatest operands bounds those for all others.
-/

namespace CodeSearch

variable {n d n' d' k : Nat}

/-! ## Quotients -/

/-- The nearest natural number to a ratio is at most `k` if the ratio is below the middle between
`k` and its successor, or at it and `k` is even. -/
theorem divEven_le_iff (pos : 0 < d) : divEven n d ≤ k ↔
    2 * n < (2 * k + 1) * d ∨ 2 * n = (2 * k + 1) * d ∧ k % 2 = 0 := by
  have whole := Nat.div_add_mod n d
  have small := Nat.mod_lt n pos
  unfold divEven
  generalize n / d = q at whole ⊢
  generalize n % d = r at whole small ⊢
  have middle : (2 * k + 1) * d = 2 * (d * k) + d := by ring
  rw [← whole, middle]
  simp only [Bool.or_eq_true, Bool.and_eq_true, decide_eq_true_eq]
  rcases Nat.lt_trichotomy q k with less | rfl | more
  · have step : d * q + d ≤ d * k := by
      rw [← Nat.mul_succ]
      exact Nat.mul_le_mul_left d less
    split <;> constructor <;> intro <;> omega
  · split <;> constructor <;> intro <;> omega
  · have step : d * k + d ≤ d * q := by
      rw [← Nat.mul_succ]
      exact Nat.mul_le_mul_left d more
    split <;> constructor <;> intro <;> omega

theorem div_le_divEven (n d : Nat) : n / d ≤ divEven n d := by
  unfold divEven
  split <;> omega

theorem divEven_mono (pos : 0 < d) (pos' : 0 < d') (le : n * d' ≤ n' * d) :
    divEven n d ≤ divEven n' d' := by
  have below := (divEven_le_iff pos').mp (Nat.le_refl (divEven n' d'))
  generalize divEven n' d' = k at below ⊢
  refine (divEven_le_iff pos).mpr ?_
  have cross : 2 * n * d' ≤ 2 * n' * d := by linarith
  have swap : (2 * k + 1) * d' * d = (2 * k + 1) * d * d' := by ring
  rcases below with below | ⟨tie, even⟩
  · left
    have scaled : 2 * n' * d < (2 * k + 1) * d' * d := Nat.mul_lt_mul_of_pos_right below pos
    exact Nat.lt_of_mul_lt_mul_right (swap ▸ Nat.lt_of_le_of_lt cross scaled)
  · rw [tie, swap] at cross
    rcases Nat.lt_or_eq_of_le (Nat.le_of_mul_le_mul_right cross pos') with below | tie
    · exact .inl below
    · exact .inr ⟨tie, even⟩

/-- The nearest natural number is off by a half at most. -/
theorem divEven_mul_le (n d : Nat) : 2 * (divEven n d * d) ≤ 2 * n + d := by
  have whole := Nat.div_add_mod n d
  unfold divEven
  generalize n / d = q at whole ⊢
  generalize n % d = r at whole ⊢
  rw [Nat.mul_comm d q] at whole
  split
  · rename_i up
    simp only [Bool.or_eq_true, Bool.and_eq_true, decide_eq_true_eq] at up
    rw [Nat.add_mul, Nat.one_mul]
    omega
  · omega

theorem divEven_one (n : Nat) : divEven n 1 = n := by
  simp [divEven, Nat.mod_one]

namespace BinaryFormat

variable {f : BinaryFormat}

/-! ## Codes -/

/-- How many binary digits of a quotient are rounded away. -/
def shift (f : BinaryFormat) (q : Nat) : Nat := q.log2 + 1 - f.precision

theorem nearest_eq (f : BinaryFormat) (n d : Nat) : f.nearest n d =
    min (f.shift (n / d) * 2 ^ (f.precision - 1) + divEven n (d * 2 ^ f.shift (n / d)))
      f.infinity := rfl

theorem shift_mono {q q' : Nat} (le : q ≤ q') : f.shift q ≤ f.shift q' := by
  have logs : q.log2 ≤ q'.log2 := by
    by_cases zero : q = 0
    · rw [zero]
      exact Nat.zero_le _
    · exact (Nat.le_log2 (by omega)).mpr (Nat.le_trans (Nat.log2_self_le zero) le)
  unfold shift
  omega

theorem divEven_le (precise : 0 < f.precision) (pos : 0 < d) :
    divEven n (d * 2 ^ f.shift (n / d)) ≤ 2 * 2 ^ (f.precision - 1) := by
  have unit : 0 < d * 2 ^ f.shift (n / d) := Nat.mul_pos pos (Nat.two_pow_pos _)
  refine (divEven_le_iff unit).mpr (.inl ?_)
  have quotient : n / d < 2 ^ (f.shift (n / d) + f.precision) :=
    Nat.lt_of_lt_of_le Nat.lt_log2_self (Nat.pow_le_pow_right (by decide) (by unfold shift; omega))
  have bound : n < 2 ^ (f.shift (n / d) + f.precision) * d :=
    (Nat.div_lt_iff_lt_mul pos).mp quotient
  have digits : 2 ^ f.precision = 2 * 2 ^ (f.precision - 1) := by
    rw [← Nat.pow_succ']
    congr 1
    omega
  rw [Nat.pow_add, digits] at bound
  generalize 2 ^ f.shift (n / d) = u at bound unit ⊢
  generalize 2 ^ (f.precision - 1) = half at bound ⊢
  have same : (2 * (2 * half) + 1) * (d * u) = 2 * (u * (2 * half) * d) + d * u := by ring
  omega

theorem le_divEven (precise : 0 < f.precision) (pos : 0 < d) (shifted : 0 < f.shift (n / d)) :
    2 ^ (f.precision - 1) ≤ divEven n (d * 2 ^ f.shift (n / d)) := by
  refine Nat.le_trans ?_ (div_le_divEven _ _)
  have unit : 0 < d * 2 ^ f.shift (n / d) := Nat.mul_pos pos (Nat.two_pow_pos _)
  have filled : n / d ≠ 0 := by
    intro zero
    rw [zero, shift, Nat.log2_zero] at shifted
    omega
  have exponent : f.precision - 1 + f.shift (n / d) = (n / d).log2 := by
    unfold shift at shifted ⊢
    omega
  rw [Nat.le_div_iff_mul_le unit]
  calc 2 ^ (f.precision - 1) * (d * 2 ^ f.shift (n / d))
      = 2 ^ (f.precision - 1 + f.shift (n / d)) * d := by rw [Nat.pow_add]; ring
    _ = 2 ^ (n / d).log2 * d := by rw [exponent]
    _ ≤ n / d * d := Nat.mul_le_mul_right d (Nat.log2_self_le filled)
    _ ≤ n := Nat.div_mul_le_self n d

/-- Rounding keeps the order of ratios. -/
theorem nearest_mono (precise : 0 < f.precision) (pos : 0 < d) (pos' : 0 < d')
    (le : n * d' ≤ n' * d) : f.nearest n d ≤ f.nearest n' d' := by
  have quotients : n / d ≤ n' / d' := by
    rw [Nat.le_div_iff_mul_le pos']
    refine Nat.le_of_mul_le_mul_right ?_ pos
    calc n / d * d' * d = n / d * d * d' := by ring
      _ ≤ n * d' := Nat.mul_le_mul_right d' (Nat.div_mul_le_self n d)
      _ ≤ n' * d := le
  rw [nearest_eq, nearest_eq]
  refine min_le_min_right _ ?_
  rcases Nat.lt_or_eq_of_le (shift_mono quotients : f.shift (n / d) ≤ _) with less | same
  · -- Between the two is a code whose digits are all rounded away at the lower place.
    have low := divEven_le (n := n) precise pos
    have high := le_divEven (n := n') precise pos' (by omega)
    have step := Nat.mul_le_mul_right (2 ^ (f.precision - 1)) (Nat.succ_le_of_lt less)
    rw [Nat.succ_mul] at step
    omega
  · rw [same]
    refine Nat.add_le_add_left (divEven_mono ?_ ?_ ?_) _
    · exact Nat.mul_pos pos (Nat.two_pow_pos _)
    · exact Nat.mul_pos pos' (Nat.two_pow_pos _)
    · calc n * (d' * 2 ^ f.shift (n' / d')) = n * d' * 2 ^ f.shift (n' / d') := by ring
        _ ≤ n' * d * 2 ^ f.shift (n' / d') := Nat.mul_le_mul_right _ le
        _ = n' * (d * 2 ^ f.shift (n' / d')) := by ring

theorem nearest_le_infinity (f : BinaryFormat) (n d : Nat) : f.nearest n d ≤ f.infinity :=
  Nat.min_le_right ..

/-! ## Units -/

theorem units_of_lt {code : Nat} (subnormal : code < 2 * 2 ^ (f.precision - 1)) :
    f.units code = code :=
  if_pos subnormal

/-- The units of a code with an exponent `a` and the digits `b` behind the first. -/
theorem units_of_digits {code a b : Nat} (whole : b + 2 ^ (f.precision - 1) * a = code)
    (small : b < 2 ^ (f.precision - 1)) (normal : 2 ≤ a) :
    f.units code = (b + 2 ^ (f.precision - 1)) * 2 ^ (a - 1) := by
  have pos : 0 < 2 ^ (f.precision - 1) := Nat.two_pow_pos _
  obtain ⟨quotient, rest⟩ := (Nat.div_mod_unique pos).mpr ⟨whole, small⟩
  have large : ¬code < 2 * 2 ^ (f.precision - 1) := by
    have above := Nat.mul_le_mul_left (2 ^ (f.precision - 1)) normal
    omega
  unfold units
  simp only [Nat.pow_eq]
  rw [if_neg large, quotient, rest]

theorem units_le_succ (f : BinaryFormat) (code : Nat) : f.units code ≤ f.units (code + 1) := by
  have pos : 0 < 2 ^ (f.precision - 1) := Nat.two_pow_pos _
  have whole := Nat.mod_add_div code (2 ^ (f.precision - 1))
  have small := Nat.mod_lt code pos
  generalize code / 2 ^ (f.precision - 1) = a at whole
  generalize code % 2 ^ (f.precision - 1) = b at whole small
  by_cases subnormal : code < 2 * 2 ^ (f.precision - 1)
  · rw [units_of_lt subnormal]
    by_cases next : code + 1 < 2 * 2 ^ (f.precision - 1)
    · rw [units_of_lt next]
      exact Nat.le_succ code
    · rw [units_of_digits (a := 2) (b := 0) (by omega) pos (Nat.le_refl 2)]
      omega
  · have normal : 2 ≤ a := by
      by_contra less
      have below : 2 ^ (f.precision - 1) * a ≤ 2 ^ (f.precision - 1) * 1 :=
        Nat.mul_le_mul_left _ (by omega)
      omega
    rw [units_of_digits whole small normal]
    by_cases next : b + 1 < 2 ^ (f.precision - 1)
    · rw [units_of_digits (a := a) (b := b + 1) (by omega) next normal]
      exact Nat.mul_le_mul_right _ (by omega)
    · have step : 0 + 2 ^ (f.precision - 1) * (a + 1) = code + 1 := by
        rw [Nat.mul_succ]
        omega
      rw [units_of_digits step pos (by omega)]
      have twice : 2 ^ (a + 1 - 1) = 2 * 2 ^ (a - 1) := by
        rw [← Nat.pow_succ']
        congr 1
        omega
      rw [twice, Nat.zero_add, ← Nat.mul_assoc]
      exact Nat.mul_le_mul_right _ (by omega)

/-- A greater code has no fewer units. -/
theorem units_mono (f : BinaryFormat) : Monotone f.units :=
  monotone_nat_of_le_succ f.units_le_succ

/-- The units of a rounded number, which may have one digit more than the format keeps. -/
theorem units_of_shift {s q : Nat} (high : q ≤ 2 * 2 ^ (f.precision - 1))
    (low : 0 < s → 2 ^ (f.precision - 1) ≤ q) (small : s = 0 → q < 2 * 2 ^ (f.precision - 1)) :
    f.units (s * 2 ^ (f.precision - 1) + q) = q * 2 ^ s := by
  have pos : 0 < 2 ^ (f.precision - 1) := Nat.two_pow_pos _
  generalize half_ : 2 ^ (f.precision - 1) = half at *
  rcases Nat.eq_zero_or_pos s with rfl | shifted
  · rw [Nat.zero_mul, Nat.zero_add, pow_zero, Nat.mul_one]
    exact units_of_lt (by rw [half_]; exact small rfl)
  · have least := low shifted
    by_cases carry : q = 2 * half
    · have code : 0 + half * (s + 2) = s * half + q := by
        rw [carry]
        ring
      rw [← half_] at code pos
      rw [← half_, units_of_digits code pos (by omega), half_, carry]
      have twice : 2 ^ (s + 2 - 1) = 2 * 2 ^ s := by
        rw [← Nat.pow_succ']
        rfl
      rw [twice]
      ring
    · have code : q - half + half * (s + 1) = s * half + q := by
        rw [Nat.mul_succ, Nat.mul_comm half s]
        omega
      have digits : q - half < half := by omega
      rw [← half_] at code digits
      rw [← half_, units_of_digits code digits (by omega), half_, Nat.sub_add_cancel least,
        Nat.add_sub_cancel]

/-- Rounding makes a number greater by one part in as many as the format tells apart at most. -/
theorem units_nearest_le (precise : 0 < f.precision) (n : Nat) :
    f.units (f.nearest n 1) * 2 ^ f.precision ≤ n * (2 ^ f.precision + 1) := by
  have cap := f.units_mono (Nat.min_le_left (f.shift n * 2 ^ (f.precision - 1) +
    divEven n (2 ^ f.shift n)) f.infinity)
  have same : f.nearest n 1 = min (f.shift n * 2 ^ (f.precision - 1) +
      divEven n (2 ^ f.shift n)) f.infinity := by
    rw [nearest_eq, Nat.div_one, Nat.one_mul]
  have digits : 2 ^ f.precision = 2 * 2 ^ (f.precision - 1) := by
    rw [← Nat.pow_succ']
    congr 1
    omega
  have high := divEven_le (n := n) precise Nat.one_pos
  have low := le_divEven (n := n) precise Nat.one_pos
  rw [Nat.div_one, Nat.one_mul] at high low
  have small : f.shift n = 0 → divEven n (2 ^ f.shift n) < 2 * 2 ^ (f.precision - 1) := by
    intro none_
    rw [none_, pow_zero, divEven_one, ← digits]
    unfold shift at none_
    exact Nat.lt_of_lt_of_le Nat.lt_log2_self (Nat.pow_le_pow_right (by decide) (by omega))
  have near := divEven_mul_le n (2 ^ f.shift n)
  rw [units_of_shift high low small] at cap
  rw [same, digits]
  generalize f.units (min _ f.infinity) = units at cap ⊢
  have twice : 2 * units ≤ 2 * n + 2 ^ f.shift n := by omega
  rcases Nat.eq_zero_or_pos (f.shift n) with none_ | shifted
  · rw [none_, pow_zero] at twice
    calc units * (2 * 2 ^ (f.precision - 1))
        ≤ n * (2 * 2 ^ (f.precision - 1)) := Nat.mul_le_mul_right _ (by omega)
      _ ≤ n * (2 * 2 ^ (f.precision - 1) + 1) := Nat.mul_le_mul_left _ (Nat.le_succ _)
  · -- The unit that is rounded to is small beside the number.
    have unit : 2 ^ f.shift n * 2 ^ (f.precision - 1) ≤ n := by
      have filled : n ≠ 0 := by
        rintro rfl
        rw [shift, Nat.log2_zero] at shifted
        omega
      have exponent : f.shift n + (f.precision - 1) = n.log2 := by
        unfold shift at shifted ⊢
        omega
      rw [← Nat.pow_add, exponent]
      exact Nat.log2_self_le filled
    calc units * (2 * 2 ^ (f.precision - 1))
        = 2 * units * 2 ^ (f.precision - 1) := by ring
      _ ≤ (2 * n + 2 ^ f.shift n) * 2 ^ (f.precision - 1) := Nat.mul_le_mul_right _ twice
      _ = n * (2 * 2 ^ (f.precision - 1)) + 2 ^ f.shift n * 2 ^ (f.precision - 1) := by ring
      _ ≤ n * (2 * 2 ^ (f.precision - 1)) + n := Nat.add_le_add_left unit _
      _ = n * (2 * 2 ^ (f.precision - 1) + 1) := by ring

theorem one_pos (f : BinaryFormat) : 0 < f.one := Nat.two_pow_pos _

end BinaryFormat

/-! ## Operations on finite numbers -/

namespace Binary

variable {f g : BinaryFormat} {x y : Binary f}

theorem code_ofUnits (negative : Bool) (n d : Nat) :
    (ofUnits negative n d : Binary f).code = f.nearest n d :=
  Nat.min_eq_left (f.nearest_le_infinity n d)

theorem code_ofNat (n : Nat) : (ofNat n : Binary f).code = f.nearest (n * f.one) 1 :=
  code_ofUnits ..

theorem isNaN_of_lt (finite : x.code < f.infinity) : x.isNaN = false := by
  simp [isNaN, finite.le]

theorem isInfinite_of_lt (finite : x.code < f.infinity) : x.isInfinite = false := by
  simp [isInfinite, finite.ne]

theorem code_mul (finite : x.code < f.infinity) (finite' : y.code < f.infinity) :
    (x * y).code = f.nearest (f.units x.code * f.units y.code) f.one := by
  change (x.mul y).code = _
  unfold mul
  simp only [isNaN_of_lt finite, isNaN_of_lt finite', isInfinite_of_lt finite,
    isInfinite_of_lt finite', Bool.or_self, Bool.false_eq_true, if_false]
  exact code_ofUnits ..

theorem code_div (finite : x.code < f.infinity) (finite' : y.code < f.infinity)
    (filled : 0 < y.code) :
    (x / y).code = f.nearest (f.units x.code * f.one) (f.units y.code) := by
  have nonzero : y.isZero = false := by simp [isZero, filled.ne']
  change (x.div y).code = _
  unfold div
  simp only [isNaN_of_lt finite, isNaN_of_lt finite', isInfinite_of_lt finite,
    isInfinite_of_lt finite', nonzero, Bool.or_self, Bool.false_eq_true, if_false]
  exact code_ofUnits ..

theorem code_convert (finite : x.code < f.infinity) :
    (x.convert : Binary g).code = g.nearest (f.units x.code * g.one) f.one := by
  unfold convert
  simp only [isNaN_of_lt finite, isInfinite_of_lt finite, Bool.false_eq_true, if_false]
  exact code_ofUnits ..

end Binary

end CodeSearch
