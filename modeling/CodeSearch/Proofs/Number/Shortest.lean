import Mathlib.Algebra.Order.Field.Rat
import Mathlib.Algebra.Order.Field.Power
import Mathlib.Data.Nat.Digits.Defs
import Mathlib.Data.Rat.Cast.Order
import Mathlib.Tactic.FieldSimp
import Mathlib.Tactic.Linarith
import Mathlib.Tactic.Ring
import CodeSearch.Number.Decimal
import CodeSearch.Proofs.Number.Rounding

/-! # The decimals that numbers are written with

The shortest decimal of a number does not lie above the middle between it and the next number, and
its exponent is bounded below.
-/

namespace CodeSearch

namespace Decimal

variable {f : BinaryFormat} {code c c' n d k count fuel : Nat} {e e' : Int}

/-- The value of a decimal without its sign. -/
def magnitude (x : Decimal) : ℚ := x.coefficient * 10 ^ x.exponent

/-- A decimal that reads back is not above the middle between the code and the next one. -/
theorem readsBack_le (reads : readsBack f code c e = true) :
    (c * 10 ^ e : ℚ) * (2 * f.one) ≤ f.units code + f.units (code + 1) := by
  have bound : (twice c e f.one).1 ≤
      (f.units code + f.units (code + 1)) * (twice c e f.one).2 := by
    have order : f.units (code - 1) ≤ f.units (code + 1) := f.units_mono (by omega)
    have low := Nat.mul_le_mul_right (twice c e f.one).2
      (Nat.add_le_add_right order (f.units code))
    rw [Nat.add_comm (f.units (code + 1))] at low
    simp only [readsBack, Bool.or_eq_true, Bool.and_eq_true, decide_eq_true_eq] at reads
    rcases reads with ⟨-, below⟩ | ⟨-, same | same⟩
    · exact below.le
    · exact same ▸ low
    · exact same.le
  have ratio : ((twice c e f.one).1 : ℚ) ≤
      (f.units code + f.units (code + 1)) * (twice c e f.one).2 := by exact_mod_cast bound
  unfold twice at ratio
  split at ratio
  · obtain ⟨k, rfl⟩ : ∃ k : Nat, e = -(k : Int) := ⟨(-e).toNat, by omega⟩
    have pos : (0 : ℚ) < 10 ^ k := by positivity
    simp only [neg_neg, Int.toNat_natCast, Nat.pow_eq, Nat.cast_mul, Nat.cast_pow,
      Nat.cast_ofNat] at ratio
    rw [zpow_neg, zpow_natCast, mul_right_comm, ← div_eq_mul_inv, div_le_iff₀ pos]
    linarith
  · obtain ⟨k, rfl⟩ := Int.eq_ofNat_of_zero_le (not_lt.mp ‹_›)
    simp only [Int.toNat_natCast, Nat.pow_eq, Nat.cast_mul, Nat.cast_pow, Nat.cast_ofNat,
      Nat.cast_one, mul_one] at ratio
    rw [zpow_natCast]
    linarith

/-- The exponents of ratios with a denominator below a power of ten are bounded below. -/
theorem le_leading (pos : 0 < k) (small : d ≤ 10 ^ k) : 1 - (k : Int) ≤ leading n d := by
  unfold leading
  split
  · have digits : 0 < digitCount (n / d) := Nat.length_toDigits_pos
    omega
  · have below : (d - 1) / n < 10 ^ k := by
      refine Nat.lt_of_le_of_lt (Nat.div_le_self _ _) ?_
      have filled : 0 < 10 ^ k := by positivity
      omega
    have digits : digitCount ((d - 1) / n) ≤ k := Nat.toDigits_length 10 _ k pos below
    omega

theorem of_withDigits (found : withDigits f code count = some (c, e)) :
    readsBack f code c e = true ∧ e = leading (f.units code) f.one - count := by
  unfold withDigits at found
  dsimp only at found
  generalize leading (f.units code) f.one - count = e₀ at found ⊢
  have inside : ∀ {x xs}, (neighbours (f.units code) f.one e₀).filter
      (fun c => readsBack f code c e₀) = xs → x ∈ xs → readsBack f code x e₀ = true := by
    rintro x xs rfl listed
    exact (List.mem_filter.mp listed).2
  split at found
  · cases found
  · rename_i c' only
    obtain ⟨rfl, rfl⟩ := Prod.mk.inj (Option.some.inj found)
    exact ⟨inside only List.mem_cons_self, rfl⟩
  · rename_i c' c'' rest both
    obtain ⟨nearer, rfl⟩ := Prod.mk.inj (Option.some.inj found)
    refine ⟨?_, rfl⟩
    split at nearer
    · exact nearer ▸ inside both List.mem_cons_self
    · exact nearer ▸ inside both (List.mem_cons_of_mem _ List.mem_cons_self)

/-- Zeros at the end of a coefficient go to the exponent. -/
theorem of_stripZeros (stripped : stripZeros fuel c e = (c', e')) :
    (c' * 10 ^ e' : ℚ) = c * 10 ^ e ∧ e ≤ e' := by
  induction fuel generalizing c e with
  | zero =>
    obtain ⟨rfl, rfl⟩ := Prod.mk.inj stripped
    exact ⟨rfl, le_rfl⟩
  | succ fuel ih =>
    unfold stripZeros at stripped
    split at stripped
    · rename_i zero
      simp only [Bool.and_eq_true, decide_eq_true_eq] at zero
      obtain ⟨same, grows⟩ := ih stripped
      have whole : (c : ℚ) = (c / 10 : Nat) * 10 := by
        have split := Nat.div_add_mod c 10
        rw [zero.2] at split
        exact_mod_cast (by omega : c = c / 10 * 10)
      refine ⟨?_, by omega⟩
      rw [same, whole, zpow_add_one₀ (by norm_num)]
      ring
    · obtain ⟨rfl, rfl⟩ := Prod.mk.inj stripped
      exact ⟨rfl, le_rfl⟩

/-- What the shortest decimal of a number is, if it is not zero. -/
theorem shortest_cases (x : Binary f) (pos : 0 < k) (small : f.one ≤ 10 ^ k) :
    (shortest x).coefficient = 0 ∨
      (shortest x).magnitude * (2 * f.one) ≤ f.units x.code + f.units (x.code + 1) ∧
        -((k : Int) + 16) ≤ (shortest x).exponent := by
  unfold shortest
  split
  · exact .inl rfl
  · split
    · rename_i c e found
      right
      obtain ⟨count, listed, some_⟩ := List.exists_of_findSome?_eq_some found
      obtain ⟨reads, exponent⟩ := of_withDigits some_
      rcases stripped : stripZeros 18 c e with ⟨c', e'⟩
      obtain ⟨same, grows⟩ := of_stripZeros stripped
      have bound := le_leading (n := f.units x.code) pos small
      have few := List.mem_range.mp listed
      refine ⟨?_, ?_⟩
      · rw [magnitude]
        simp only
        rw [same]
        exact readsBack_le reads
      · simp only
        omega
    · exact .inl rfl

end Decimal

end CodeSearch
