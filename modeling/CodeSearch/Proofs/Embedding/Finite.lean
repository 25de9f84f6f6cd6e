import CodeSearch.Embedding.Stub
import CodeSearch.Proofs.Embedding.Distance

/-! # Vectors of hashes are finite

The numbers of a vector without a model are at most one. The least norm above zero is the root of
the least number, so that no quotient by it comes near the greatest number.
-/

namespace CodeSearch

namespace Binary

variable {f : BinaryFormat} {x y : Binary f} {digits m n : Nat}

/-- The root that is computed is not less than any root from below. -/
theorem le_floorSqrt (fits : n < 4 ^ digits) (below : m * m ≤ n) : m ≤ floorSqrt digits n := by
  induction digits generalizing m n with
  | zero =>
    obtain rfl : n = 0 := by simpa using fits
    exact (Nat.mul_self_le_mul_self_iff.mp (by simpa using below) : m ≤ 0)
  | succ digits ih =>
    have quarter : n / 4 < 4 ^ digits := by
      rw [Nat.pow_succ] at fits
      omega
    have half : m / 2 * (m / 2) ≤ n / 4 := by
      rw [Nat.le_div_iff_mul_le (by decide)]
      calc m / 2 * (m / 2) * 4 = (m / 2 * 2) * (m / 2 * 2) := by ring
        _ ≤ m * m := Nat.mul_self_le_mul_self (Nat.div_mul_le_self m 2)
        _ ≤ n := below
    have least := ih quarter half
    unfold floorSqrt
    generalize floorSqrt digits (n / 4) = r at least
    dsimp only
    split
    · omega
    · rename_i short
      by_contra more
      have next : m = 2 * r + 1 := by omega
      exact short (next ▸ below)

theorem lt_pow_digits (n : Nat) : n < 4 ^ (n.log2 / 2 + 1) := by
  calc n < 2 ^ (n.log2 + 1) := Nat.lt_log2_self
    _ ≤ 2 ^ (2 * (n.log2 / 2 + 1)) := Nat.pow_le_pow_right (by decide) (by omega)
    _ = 4 ^ (n.log2 / 2 + 1) := by rw [Nat.pow_mul]

theorem isNaN_ofUnits (negative : Bool) (n d : Nat) :
    (ofUnits negative n d : Binary f).isNaN = false := by
  have small := f.nearest_le_infinity n d
  simp only [isNaN, code_ofUnits, decide_eq_false_iff_not]
  omega

/-- A number that has no sign. -/
structure IsSize (x : Binary f) : Prop where
  number : x.isNaN = false
  positive : x.negative = false

theorem isNaN_zero (negative : Bool) : (zero negative : Binary f).isNaN = false := by
  rw [isNaN, zero_code]
  simp

theorem IsSize.add (left : x.IsSize) (right : y.IsSize) : (x + y).IsSize := by
  refine ⟨?_, negative_add left.positive right.positive⟩
  change (x.add y).isNaN = false
  unfold Binary.add
  simp only [left.number, right.number, left.positive, right.positive, bne_self_eq_false,
    Bool.or_self, Bool.and_false, Bool.false_eq_true, if_false]
  split
  · exact left.number
  · split
    · exact right.number
    · split
      · exact isNaN_zero _
      · exact isNaN_ofUnits ..

theorem IsSize.mul_self (finite : x.code < f.infinity) : (x * x).IsSize := by
  refine ⟨?_, negative_mul_self x⟩
  change (x.mul x).isNaN = false
  unfold mul
  simp only [isNaN_of_lt finite, isInfinite_of_lt finite, Bool.or_self, Bool.false_eq_true,
    if_false]
  exact isNaN_ofUnits ..

theorem IsSize.isNaN_sqrt (size : x.IsSize) : x.sqrt.isNaN = false := by
  unfold sqrt
  simp only [size.number, size.positive, Bool.false_eq_true, if_false]
  split
  · exact size.number
  · split
    · exact size.number
    · exact isNaN_ofUnits ..

theorem IsSize.isZero_sqrt (size : x.IsSize) (zero : x.isZero = true) : x.sqrt.isZero = true := by
  simp [sqrt, size.number, zero]

/-- A number above zero is one unit at least, and its root has `m` units if the root of one unit has
so many. -/
theorem IsSize.nearest_le_sqrt (precise : 0 < f.precision) (size : x.IsSize)
    (filled : x.isZero = false) (below : m * m ≤ f.one) : f.nearest m 1 ≤ x.sqrt.code := by
  unfold sqrt
  simp only [size.number, size.positive, filled, Bool.false_eq_true, if_false]
  split
  · rename_i infinite
    rw [of_decide_eq_true infinite]
    exact f.nearest_le_infinity m 1
  · rw [code_ofUnits]
    refine BinaryFormat.nearest_mono precise (by decide) (by decide) ?_
    have least : 1 ≤ f.units x.code := by
      have unit : 1 < 2 * 2 ^ (f.precision - 1) := by
        have := Nat.two_pow_pos (f.precision - 1)
        omega
      rw [← BinaryFormat.units_of_lt unit]
      exact f.units_mono (Nat.pos_of_ne_zero (of_decide_eq_false filled))
    have enough : m * m ≤ f.units x.code * f.one := below.trans (Nat.le_mul_of_pos_left _ least)
    have root := le_floorSqrt (lt_pow_digits _) enough
    omega

/-- A finite number is finite also after it is divided by a number that is not too small. -/
theorem isFinite_div {least most : Nat} (precise : 0 < f.precision) (finite : x.code < f.infinity)
    (number : y.isNaN = false) (small : f.units x.code ≤ most) (large : least ≤ y.code)
    (filled : 0 < f.units least) (room : f.nearest (most * f.one) (f.units least) < f.infinity) :
    (x / y).isFinite = true := by
  have above := f.units_mono large
  by_cases infinite : y.isInfinite = true
  · change (x.div y).isFinite = true
    unfold div
    simp only [isNaN_of_lt finite, isInfinite_of_lt finite, number, infinite, Bool.or_self,
      Bool.false_eq_true, if_false, if_true]
    rw [isFinite, zero_code]
    exact decide_eq_true (Nat.zero_lt_of_lt finite)
  · have below : y.code < f.infinity := by
      simp only [isNaN, isInfinite, decide_eq_false_iff_not, decide_eq_true_eq] at number infinite
      omega
    have nonzero : 0 < y.code := by
      rcases Nat.eq_zero_or_pos y.code with none_ | some_
      · have unit : f.units 0 = 0 := BinaryFormat.units_of_lt (by positivity)
        rw [none_, unit] at above
        omega
      · exact some_
    rw [isFinite, code_div finite below nonzero]
    refine decide_eq_true (Nat.lt_of_le_of_lt ?_ room)
    refine BinaryFormat.nearest_mono precise (filled.trans_le above) filled ?_
    exact Nat.mul_le_mul (Nat.mul_le_mul_right _ small) above

end Binary

namespace Stub

/-- A number for a word is at most one. -/
theorem code_number_le (word : UInt64) :
    (number word).code ≤ BinaryFormat.single.nearest BinaryFormat.single.one 1 := by
  have bits : (word >>> 41).toNat < numbers := by
    rw [UInt64.toNat_shiftRight, Nat.shiftRight_eq_div_pow]
    have := word.toNat_lt
    change word.toNat / 2 ^ 41 < 8388608
    omega
  rw [number, Binary.ofRatio, Binary.code_ofUnits]
  refine BinaryFormat.nearest_mono (by decide) (by decide) (by decide) ?_
  rw [Nat.mul_one, Nat.mul_comm]
  refine Nat.mul_le_mul_left _ ?_
  omega

theorem isFinite_number (word : UInt64) : (number word).code < BinaryFormat.single.infinity :=
  Nat.lt_of_le_of_lt (code_number_le word) (by decide +kernel)

/-- The root of the least number above zero has this code at least. -/
def leastNorm : Nat := BinaryFormat.single.nearest (2 ^ 74) 1

theorem leastNorm_le {sum : Single} (size : sum.IsSize) (filled : sum.isZero = false) :
    leastNorm ≤ sum.sqrt.code :=
  size.nearest_le_sqrt (by decide) filled (by decide +kernel)

theorem units_number_le (word : UInt64) :
    BinaryFormat.single.units (number word).code ≤ BinaryFormat.single.one := by
  have whole : BinaryFormat.single.units
      (BinaryFormat.single.nearest BinaryFormat.single.one 1) = BinaryFormat.single.one := by
    decide +kernel
  rw [← whole]
  exact BinaryFormat.single.units_mono (code_number_le word)

theorem isFinite_quotient {norm : Single} (word : UInt64) (number_ : norm.isNaN = false)
    (large : leastNorm ≤ norm.code) : (number word / norm).isFinite = true :=
  Binary.isFinite_div (by decide) (isFinite_number word) number_ (units_number_le word) large
    (by decide +kernel) (by decide +kernel)

/-- Every vector of a text has finite numbers. -/
theorem isFinite_of_mem_embed {dimension : Nat} {text : String} {x : Single}
    (listed : x ∈ embed dimension text) : x.isFinite = true := by
  unfold embed normalise at listed
  generalize wordsFrom dimension (seed text dimension) = words at listed
  have square : ((List.zipWith (· * ·) (words.map number) (words.map number)).foldl (· + ·)
      (Binary.zero false)).IsSize := by
    refine Embedding.foldl_closed (fun _ _ => Binary.IsSize.add) ⟨Binary.isNaN_zero _, rfl⟩ ?_
    intro y among
    rw [List.zipWith_self] at among
    obtain ⟨z, term, rfl⟩ := List.mem_map.mp among
    obtain ⟨word, -, rfl⟩ := List.mem_map.mp term
    exact .mul_self (isFinite_number word)
  generalize List.foldl _ _ _ = sum at listed square
  dsimp only at listed
  split at listed
  · obtain ⟨word, -, rfl⟩ := List.mem_map.mp listed
    exact decide_eq_true (isFinite_number word)
  · rename_i norm
    obtain ⟨z, term, rfl⟩ := List.mem_map.mp listed
    obtain ⟨word, -, rfl⟩ := List.mem_map.mp term
    have filled : sum.isZero = false := by
      cases zero : sum.isZero with
      | false => rfl
      | true => exact absurd (square.isZero_sqrt zero) norm
    exact isFinite_quotient word square.isNaN_sqrt (leastNorm_le square filled)

end Stub

end CodeSearch
