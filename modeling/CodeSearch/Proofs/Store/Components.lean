import CodeSearch.Proofs.Data.Scaling
import CodeSearch.Proofs.Store.Document

/-! # Components that are read again

A finite component is written as a numeral that is read as a finite component, if not always as the
same. One that is not finite is written as null, and no vector is read from that. So the records of
a snapshot are read again if and only if all their components are finite.
-/

namespace CodeSearch

/-- One item that is not read stops the whole. -/
theorem mapM_eq_none {α β : Type} {f : α → Option β} {x : α} {xs : List α} (listed : x ∈ xs)
    (refused : f x = none) : xs.mapM f = none := by
  induction xs with
  | nil => cases listed
  | cons y ys ih =>
    rw [List.mapM_cons]
    rcases List.mem_cons.mp listed with rfl | rest
    · rw [refused]
      rfl
    · rw [ih rest]
      cases f y <;> rfl

namespace Decimal

variable {d : Decimal}

/-- What is below the middle has few digits on either side of the point. -/
theorem few_digits (filled : d.coefficient ≠ 0) (low : -61 ≤ d.exponent)
    (bound : d.magnitude ≤ Numeral.crest) : (digits d.coefficient).length ≤ 100 ∧
      d.exponent ≤ 38 := by
  have whole : (1 : ℚ) ≤ d.coefficient := by
    exact_mod_cast Nat.pos_of_ne_zero filled
  have ten : (1 : ℚ) ≤ 10 := by norm_num
  unfold magnitude at bound
  constructor
  · have pos : (0 : ℚ) < 10 ^ 61 := by positivity
    have scaled : (d.coefficient : ℚ) ≤ (Numeral.crest * 10 ^ 61 : Nat) := by
      have power : (10 : ℚ) ^ (-61 : Int) ≤ 10 ^ d.exponent := zpow_le_zpow_right₀ ten low
      have least := (mul_le_mul_of_nonneg_left power (by linarith)).trans bound
      rw [zpow_neg, ← div_eq_mul_inv, div_le_iff₀ (by positivity)] at least
      exact_mod_cast least
    have small : d.coefficient < 10 ^ 100 := by
      have above : Numeral.crest * 10 ^ 61 < 10 ^ 100 := by decide
      exact lt_of_le_of_lt (by exact_mod_cast scaled) above
    exact Nat.toDigits_length 10 _ 100 (by decide) small
  · by_contra more
    have power : (10 : ℚ) ^ (39 : Int) ≤ 10 ^ d.exponent := zpow_le_zpow_right₀ ten (by omega)
    have above : (Numeral.crest : ℚ) < 10 ^ (39 : Int) := by
      have above : Numeral.crest < 10 ^ 39 := by decide
      exact_mod_cast above
    have least : (10 : ℚ) ^ d.exponent ≤ d.coefficient * 10 ^ d.exponent :=
      le_mul_of_one_le_left (by positivity) whole
    linarith

end Decimal

namespace Json

variable {x : Single}

/-- The greatest finite numbers, which are above the middle, are tried. -/
theorem reread?_greatest : ∀ negative,
    (reread? (Binary.ofCode negative (BinaryFormat.single.infinity - 1))).map Binary.isFinite =
      some true := by decide +kernel

theorem shortest_le_crest (below : x.code + 1 < BinaryFormat.single.infinity) :
    (Decimal.shortest x).coefficient = 0 ∨
      (Decimal.shortest x).magnitude ≤ Numeral.crest ∧ -61 ≤ (Decimal.shortest x).exponent := by
  have small : BinaryFormat.single.one ≤ 10 ^ 45 := by decide
  rcases Decimal.shortest_cases x (by decide) small with zero | ⟨bound, low⟩
  · exact .inl zero
  · refine .inr ⟨?_, low⟩
    have one := BinaryFormat.one_pos .single
    have top : BinaryFormat.single.units (BinaryFormat.single.infinity - 2) +
        BinaryFormat.single.units (BinaryFormat.single.infinity - 1) =
          Numeral.crest * (2 * BinaryFormat.single.one) := by decide
    have first := BinaryFormat.units_mono .single
      (show x.code ≤ BinaryFormat.single.infinity - 2 by omega)
    have second := BinaryFormat.units_mono .single
      (show x.code + 1 ≤ BinaryFormat.single.infinity - 1 by omega)
    have sum : BinaryFormat.single.units x.code + BinaryFormat.single.units (x.code + 1) ≤
        Numeral.crest * (2 * BinaryFormat.single.one) := top ▸ Nat.add_le_add first second
    have scaled : (Decimal.shortest x).magnitude * (2 * BinaryFormat.single.one) ≤
        Numeral.crest * (2 * BinaryFormat.single.one) := bound.trans (by exact_mod_cast sum)
    exact le_of_mul_le_mul_right scaled (by positivity)

theorem reread?_of_prints {y : Numeral} (text : scalar (.single x) = y.spell)
    (regular : y.Regular) : reread? x = y.value.single? := by
  rw [reread?, text, number_eq (numeral_spell regular)]

/-- A finite number is read again as a finite number. -/
theorem reread?_finite (finite : x.isFinite = true) :
    ∃ y, reread? x = some y ∧ y.isFinite = true := by
  have below : x.code < BinaryFormat.single.infinity := by simpa [Binary.isFinite] using finite
  by_cases greatest : x.code + 1 = BinaryFormat.single.infinity
  · have same : x = Binary.ofCode x.negative (BinaryFormat.single.infinity - 1) := by
      obtain ⟨negative, code, inside⟩ := x
      simp only [Binary.ofCode, Binary.mk.injEq, true_and]
      simp only at greatest
      omega
    have read := reread?_greatest x.negative
    rw [← same] at read
    obtain ⟨y, again, finite'⟩ := Option.map_eq_some_iff.mp read
    exact ⟨y, again, finite'⟩
  · obtain ⟨y, text, prints⟩ := real_prints ⟨13⟩ finite
    obtain ⟨regular, marked, magnitude, whole, places, order⟩ := prints
    have width : (y.whole.length : Int) ≤ max 1 13 := whole
    have short : 10 ^ y.whole.length ≤ wordSize :=
      (Nat.pow_le_pow_right (by decide) (by omega : y.whole.length ≤ 13)).trans (by decide)
    have fits : y.magnitude ≤ Numeral.crest ∧ -308 ≤ y.order - y.places.length ∧
        y.order ≤ 308 := by
      rw [magnitude]
      by_cases zero : (Decimal.shortest x).coefficient = 0
      · have digits : (Decimal.digits 0).length = 1 := rfl
        rw [zero] at places order
        rw [Decimal.magnitude, zero]
        refine ⟨by simp, ?_, ?_⟩
        · omega
        · omega
      · obtain ⟨bound, low⟩ := (shortest_le_crest (by omega)).resolve_left zero
        obtain ⟨few, high⟩ := Decimal.few_digits zero low bound
        exact ⟨bound, by omega, by omega⟩
    rw [reread?_of_prints text regular]
    exact Numeral.single?_of_le_crest regular.whole short marked fits.2.1 fits.2.2 fits.1

/-- Nothing is read again from a number that is not finite. -/
theorem reread?_eq_none (other : x.isFinite = false) : reread? x = none := by
  have text : scalar (.single x) = ['n', 'u', 'l', 'l'] := by
    change real ⟨13⟩ x = _
    simp [real, other]
  rw [reread?, text]
  rfl

theorem spells_single (x : Single) : Spells (scalar (.single x)) := by
  cases finite : x.isFinite with
  | true =>
    obtain ⟨y, text, prints⟩ := real_prints ⟨13⟩ finite
    right
    exact ⟨y, by rw [scalar, text, numeral_spell prints.regular]⟩
  | false =>
    left
    change real ⟨13⟩ x = _
    simp [real, finite]

theorem mapM_reread?_finite {xs : Embedding} (finite : ∀ x ∈ xs, x.isFinite = true) :
    ∃ ys, xs.mapM reread? = some ys ∧ ys.length = xs.length ∧ ∀ y ∈ ys, y.isFinite = true := by
  induction xs with
  | nil => exact ⟨[], rfl, rfl, nofun⟩
  | cons x xs ih =>
    obtain ⟨first, rest⟩ := List.forall_mem_cons.mp finite
    obtain ⟨y, read, finite'⟩ := reread?_finite first
    obtain ⟨ys, others, length, all⟩ := ih rest
    refine ⟨y :: ys, ?_, congrArg (· + 1) length, List.forall_mem_cons.mpr ⟨finite', all⟩⟩
    rw [List.mapM_cons, read, others]
    rfl

end Json

namespace Record

variable {r : Record} {dimension : Nat}

/-- All components are finite. -/
def IsFinite (r : Record) : Prop := ∀ x ∈ r.vector, x.isFinite = true

/-- Records that a store takes, and takes again from a snapshot. -/
structure Durable (dimension : Nat) (r : Record) : Prop where
  length : r.vector.length = dimension
  finite : r.IsFinite
  first : r.metadata.startLine < wordSize
  last : r.metadata.endLine < wordSize

theorem legible (first : r.metadata.startLine < wordSize) (last : r.metadata.endLine < wordSize) :
    r.Legible :=
  ⟨fun x _ => Json.spells_single x, first, last⟩

theorem Durable.reread?_eq (durable : r.Durable dimension) :
    ∃ r', r.reread? = some r' ∧ r'.Durable dimension := by
  obtain ⟨ys, read, length, finite⟩ := Json.mapM_reread?_finite durable.finite
  refine ⟨{ r with vector := ys }, ?_, ?_⟩
  · rw [reread?, read]
    rfl
  · exact ⟨length.trans durable.length, finite, durable.first, durable.last⟩

/-- A record with a component that is not finite is not read again. -/
theorem reread?_eq_none (other : ¬r.IsFinite) : r.reread? = none := by
  simp only [IsFinite, not_forall, Bool.not_eq_true] at other
  obtain ⟨x, inside, infinite⟩ := other
  rw [reread?, mapM_eq_none inside (Json.reread?_eq_none infinite), Option.map_none]

end Record

namespace Snapshot

variable {records : Table Record} {dimension : Nat} {es : List (String × Record)}

theorem mapM_durable (durable : ∀ e ∈ es, e.2.Durable dimension) :
    ∃ fs, (es.mapM fun e => e.2.reread?.map fun r => (e.1, r)) = some fs ∧
      fs.map Prod.fst = es.map Prod.fst ∧ ∀ e ∈ fs, e.2.Durable dimension := by
  induction es with
  | nil => exact ⟨[], rfl, rfl, nofun⟩
  | cons e es ih =>
    obtain ⟨first, rest⟩ := List.forall_mem_cons.mp durable
    obtain ⟨r, read, durable'⟩ := first.reread?_eq
    obtain ⟨fs, others, ids, all⟩ := ih rest
    refine ⟨(e.1, r) :: fs, ?_, ?_, List.forall_mem_cons.mpr ⟨durable', all⟩⟩
    · rw [List.mapM_cons, read, others]
      rfl
    · rw [List.map_cons, List.map_cons, ids]

/-- All records can be read again. -/
def Durable (dimension : Nat) (records : Table Record) : Prop :=
  ∀ id r, records.get? id = some r → r.Durable dimension

theorem keys_ofList {fs : List (String × Record)}
    (ids : fs.map Prod.fst = records.entries.map Prod.fst) :
    (Table.ofList fs).entries = fs ∧ (Table.ofList fs).keys = records.keys := by
  have ascending : fs.Pairwise fun a b => a.1 < b.1 := by
    have own := records.ascending
    rw [← List.pairwise_map (f := Prod.fst) (R := (· < ·))] at own ⊢
    rwa [ids]
  have same : Table.ofList fs = ⟨fs, ascending⟩ := Table.ofList_entries ⟨fs, ascending⟩
  rw [same]
  exact ⟨rfl, ids⟩

/-- Records that can be read again are, under the same ids. -/
theorem Durable.reread?_eq (durable : Durable dimension records) :
    ∃ again, reread? records = some again ∧ again.keys = records.keys ∧
      Durable dimension again := by
  have entries : ∀ e ∈ records.entries, e.2.Durable dimension :=
    fun e listed => durable e.1 e.2 (Table.mem_entries_iff.mp listed)
  obtain ⟨fs, read, ids, all⟩ := mapM_durable entries
  obtain ⟨same, keys⟩ := keys_ofList ids
  refine ⟨Table.ofList fs, ?_, keys, fun id r there => ?_⟩
  · rw [reread?, read, Option.map_some]
  · rw [← Table.mem_entries_iff, same] at there
    exact all (id, r) there

/-- Fields are read under their names. -/
theorem mapM_names {fields : List (String × Value)} {fs : List (String × Record)}
    (read : fields.mapM (fun field =>
      (Record.ofValue? Json.dialect field.2).map fun r => (field.1, r)) = some fs) :
    fs.map Prod.fst = fields.map Prod.fst := by
  induction fields generalizing fs with
  | nil =>
    obtain rfl := Option.some.inj read
    rfl
  | cons field fields ih =>
    rw [List.mapM_cons] at read
    cases first : Record.ofValue? Json.dialect field.2 with
    | none => simp [first] at read
    | some r =>
      cases rest : fields.mapM fun field =>
          (Record.ofValue? Json.dialect field.2).map fun r => (field.1, r) with
      | none => simp [first, rest] at read
      | some others =>
        obtain rfl : (field.1, r) :: others = fs := by simpa [first, rest] using read
        rw [List.map_cons, List.map_cons, ih rest]

theorem names_echo (es : List (String × Record)) :
    (Json.echoFields (es.map fun (id, r) => (id, r.toValue))).map Prod.fst = es.map Prod.fst := by
  induction es with
  | nil => rfl
  | cons e es ih => rw [List.map_cons, Json.echoFields, List.map_cons, List.map_cons, ih]

theorem keys_of_records? {again : Table Record}
    (read : records? Json.dialect
      (Json.echo (.record (records.entries.map fun (id, r) => (id, r.toValue)))) = some again) :
    again.keys = records.keys := by
  rw [Json.echo_record, records?] at read
  obtain ⟨fs, listed, rfl⟩ := Option.map_eq_some_iff.mp read
  exact (keys_ofList ((mapM_names listed).trans (names_echo records.entries))).2

/-- Whatever the records are, those that are read from their snapshot have their ids. -/
theorem keys_of_recordsFor {s : Snapshot} {again : Table Record}
    (read : recordsFor dimension s.encode = .ok again) : again.keys = s.records.keys := by
  have written : Json.Legible s.toValue := legible_toValue fun _ _ x _ => Json.spells_single x
  have fields : ∀ version dimension metric records : Value,
      Value.fields? Json.dialect ["schema_version", "dimension", "metric", "records"]
        (.record [("schema_version", version), ("dimension", dimension), ("metric", metric),
          ("records", records)]) =
        some [some version, some dimension, some metric, some records] := fun _ _ _ _ => rfl
  unfold recordsFor at read
  rw [decode?_encode_eq written, echo_toValue] at read
  split at read
  · cases read
  · rename_i t decoded
    rw [ofValue?, fields] at decoded
    simp only [Option.bind_eq_bind, Option.bind_eq_some_iff, Option.some.injEq] at decoded
    obtain ⟨version, -, length, -, metric, -, found, records, rfl⟩ := decoded
    split at read
    · cases read
    · split at read
      · cases read
      · obtain rfl := Except.ok.inj read
        exact keys_of_records? records

/-- A snapshot with a component that is not finite is not read again. -/
theorem reread?_eq_none {id : String} {r : Record} (there : records.get? id = some r)
    (other : ¬r.IsFinite) : reread? records = none := by
  have refused : (r.reread?.map fun r' => (id, r')) = none := by
    rw [Record.reread?_eq_none other, Option.map_none]
  rw [reread?, mapM_eq_none (Table.mem_entries_iff.mpr there) refused, Option.map_none]

variable {metric : Metric}

theorem Durable.recordsFor_encode (word : dimension < wordSize)
    (durable : Durable dimension records) : ∃ again,
      recordsFor dimension (encode ⟨StoreError.schemaVersion, dimension, metric, records⟩) =
        .ok again ∧ again.keys = records.keys ∧ Durable dimension again := by
  obtain ⟨again, read, ids, durable'⟩ := durable.reread?_eq
  refine ⟨again, ?_, ids, durable'⟩
  have legible : ∀ id r, records.get? id = some r → r.Legible :=
    fun id r there => Record.legible (durable id r there).first (durable id r there).last
  rw [recordsFor_encode_of_legible word legible, read]

theorem recordsFor_encode_of_infinite {id : String} {r : Record} (word : dimension < wordSize)
    (lines : ∀ id r, records.get? id = some r →
      r.metadata.startLine < wordSize ∧ r.metadata.endLine < wordSize)
    (there : records.get? id = some r) (other : ¬r.IsFinite) :
    recordsFor dimension (encode ⟨StoreError.schemaVersion, dimension, metric, records⟩) =
      .error .document := by
  have legible : ∀ id r, records.get? id = some r → r.Legible :=
    fun id r there => Record.legible (lines id r there).1 (lines id r there).2
  rw [recordsFor_encode_of_legible word legible, reread?_eq_none there other]

end Snapshot

end CodeSearch
