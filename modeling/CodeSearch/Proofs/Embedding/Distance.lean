import CodeSearch.Embedding.Metric
import CodeSearch.Proofs.Number.Rounding

/-! # Square distances

A sum of numbers that are not negative is not negative, in whatever order it is taken, so no square
distance comes before zero. A vector of finite numbers is at distance zero from itself.
-/

namespace CodeSearch

namespace Binary

variable {f : BinaryFormat} {x y : Binary f}

theorem zero_negative (negative : Bool) : (zero negative : Binary f).negative = negative := rfl

theorem zero_code (negative : Bool) : (zero negative : Binary f).code = 0 := Nat.zero_min _

/-- The sum of numbers without a sign has none. -/
theorem negative_add (left : x.negative = false) (right : y.negative = false) :
    (x + y).negative = false := by
  change (x.add y).negative = false
  unfold add
  split
  · rfl
  · split
    · split
      · rfl
      · exact left
    · split
      · exact right
      · have sum : ¬x.units + y.units < 0 := by
          simp only [units, left, right, Bool.false_eq_true, if_false]
          omega
        simp only [sum, decide_false]
        split
        · simp only [left, zero_negative, Bool.false_and]
        · rfl

/-- A square has no sign. -/
theorem negative_mul_self (x : Binary f) : (x * x).negative = false := by
  change (x.mul x).negative = false
  unfold mul
  simp only [bne_self_eq_false]
  split
  · rfl
  · split
    · split <;> rfl
    · rfl

/-- What has no sign does not come before zero. -/
theorem rank_zero_le (positive : x.negative = false) : (zero false : Binary f).rank ≤ x.rank := by
  simp only [rank, zero_negative, zero_code, positive, Bool.false_eq_true, if_false]
  omega

theorem isNaN_neg (x : Binary f) : x.neg.isNaN = x.isNaN := rfl

/-- A finite number less itself is zero. -/
theorem sub_self (finite : x.isFinite = true) : x - x = zero false := by
  have below : x.code < f.infinity := of_decide_eq_true finite
  change x.add x.neg = zero false
  have sum : x.units + x.neg.units = 0 := by
    simp only [units, neg]
    by_cases sign : x.negative = true <;> simp [sign]
  have signs : (x.negative && x.neg.negative) = false := by
    simp only [neg]
    cases x.negative <;> rfl
  have infinite : x.neg.isInfinite = false := isInfinite_of_lt below
  unfold add
  simp only [isNaN_neg, isNaN_of_lt below, isInfinite_of_lt below, infinite, sum, signs,
    Bool.or_self, Bool.false_eq_true, if_false, if_true]

end Binary

namespace Embedding

variable {p : Single → Prop} {xs ys : List Single} {u : Embedding}

theorem forall_zipWith {op : Single → Single → Single}
    (closed : ∀ x ∈ xs, ∀ y ∈ ys, p (op x y)) : ∀ z ∈ List.zipWith op xs ys, p z := by
  intro z listed
  rw [← List.map_uncurry_zip_eq_zipWith] at listed
  obtain ⟨⟨x, y⟩, paired, rfl⟩ := List.mem_map.mp listed
  obtain ⟨left, right⟩ := List.of_mem_zip paired
  exact closed x left y right

section Closed

/- A property of zero that sums keep. -/
variable (zero : p (Binary.zero false)) (sum : ∀ x y, p x → p y → p (x + y))

include sum in
theorem foldl_closed {start : Single} (first : p start) (terms : ∀ x ∈ xs, p x) :
    p (xs.foldl (· + ·) start) := by
  induction xs generalizing start with
  | nil => exact first
  | cons x xs ih =>
    obtain ⟨next, rest⟩ := List.forall_mem_cons.mp terms
    exact ih (sum _ _ first next) rest

include sum in
theorem blockSums_closed (sums : ∀ x ∈ ys, p x) (terms : ∀ x ∈ xs, p x) :
    (∀ x ∈ (blockSums ys xs).1, p x) ∧ ∀ x ∈ (blockSums ys xs).2, p x := by
  induction ys, xs using blockSums.induct with
  | case1 ys a b c d e f g h rest ih =>
    rw [blockSums]
    have block : ∀ x ∈ [a, b, c, d, e, f, g, h], p x := by
      intro x listed
      exact terms x (List.mem_append_left rest listed)
    refine ih (forall_zipWith fun x listed y listed' => ?_) fun x listed => ?_
    · exact sum x y (sums x listed) (block y listed')
    · exact terms x (List.mem_append_right [a, b, c, d, e, f, g, h] listed)
  | case2 ys rest short =>
    rw [blockSums.eq_2 ys rest short]
    exact ⟨sums, terms⟩

include zero sum in
/-- A sum has what zero and all terms have and sums keep. -/
theorem total_closed (terms : ∀ x ∈ xs, p x) : p (total xs) := by
  have start : ∀ x ∈ List.replicate 8 (Binary.zero false : Single), p x := by
    intro x listed
    rw [List.eq_of_mem_replicate listed]
    exact zero
  obtain ⟨sums, rest⟩ := blockSums_closed sum start terms
  refine foldl_closed sum zero fun x listed => ?_
  rcases List.mem_append.mp listed with paired | left
  · refine forall_zipWith (fun x listed y listed' => ?_) x paired
    exact sum x y (sums x (List.mem_of_mem_take listed)) (sums y (List.mem_of_mem_drop listed'))
  · exact rest x left

end Closed

/-- A dot product of a vector with itself has no sign. -/
theorem negative_dot_self (u : Embedding) : (dot u u).negative = false := by
  refine total_closed (p := fun x => x.negative = false) rfl
    (fun _ _ => Binary.negative_add) fun x listed => ?_
  rw [List.zipWith_self] at listed
  obtain ⟨y, -, rfl⟩ := List.mem_map.mp listed
  exact Binary.negative_mul_self y

end Embedding

namespace Metric

variable {u v : Embedding}

/-- No square distance comes before zero. -/
theorem rank_zero_le_l2 (u v : Embedding) :
    (Binary.zero false : Single).rank ≤ (l2.distance u v).rank :=
  Binary.rank_zero_le (Embedding.negative_dot_self _)

/-- A vector of finite numbers is at distance zero from itself. -/
theorem l2_self (finite : ∀ x ∈ u, x.isFinite = true) : l2.distance u u = Binary.zero false := by
  have diff : ∀ x ∈ Embedding.diff u u, x = Binary.zero false := by
    intro x listed
    rw [Embedding.diff, List.zipWith_self] at listed
    obtain ⟨y, among, rfl⟩ := List.mem_map.mp listed
    exact Binary.sub_self (finite y among)
  have sum : (Binary.zero false : Single) + Binary.zero false = Binary.zero false := by
    decide +kernel
  have product : (Binary.zero false : Single) * Binary.zero false = Binary.zero false := by
    decide +kernel
  refine Embedding.total_closed (p := fun x => x = Binary.zero false) rfl ?_ ?_
  · rintro x y rfl rfl
    exact sum
  · refine Embedding.forall_zipWith fun x listed y listed' => ?_
    rw [diff x listed, diff y listed']
    exact product

end Metric

end CodeSearch
