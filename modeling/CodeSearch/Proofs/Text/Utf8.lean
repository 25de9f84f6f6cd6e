import Mathlib.Data.List.Basic
import CodeSearch.Text.Utf8

/-! # Texts as bytes

A text is read back from its bytes. A line feed is a piece of its own, so reading bytes as
text neither makes nor loses one. Texts are in the order of their bytes.
-/

namespace CodeSearch

namespace Utf8

theorem isTail_iff {b : UInt8} : isTail b = true ↔ 128 ≤ b.toNat ∧ b.toNat ≤ 191 := by
  simp [isTail, UInt8.le_iff_toNat_le]

theorem isSecond_iff {a b : UInt8} :
    isSecond a b = true ↔ 128 ≤ b.toNat ∧ b.toNat ≤ 191 ∧ (a.toNat = 224 → 160 ≤ b.toNat) ∧
      (a.toNat = 237 → b.toNat ≤ 159) ∧ (a.toNat = 240 → 144 ≤ b.toNat) ∧
      (a.toNat = 244 → b.toNat ≤ 143) := by
  simp only [isSecond, ← UInt8.toNat_inj]
  split
  · simp_all [UInt8.le_iff_toNat_le]
    omega
  · split
    · simp_all [UInt8.le_iff_toNat_le]
      omega
    · split
      · simp_all [UInt8.le_iff_toNat_le]
        omega
      · split
        · simp_all [UInt8.le_iff_toNat_le]
          omega
        · simp_all [isTail_iff]

theorem tailCount_eq (a : UInt8) :
    tailCount a =
      if a.toNat < 128 then some 0
      else if 194 ≤ a.toNat ∧ a.toNat ≤ 223 then some 1
      else if 224 ≤ a.toNat ∧ a.toNat ≤ 239 then some 2
      else if 240 ≤ a.toNat ∧ a.toNat ≤ 244 then some 3
      else none := by
  simp [tailCount, UInt8.le_iff_toNat_le, UInt8.lt_iff_toNat_lt]

theorem tailCount_cases {a : UInt8} {n : Nat} (h : tailCount a = some n) :
    (n = 0 ∧ a.toNat < 128) ∨ (n = 1 ∧ 194 ≤ a.toNat ∧ a.toNat ≤ 223) ∨
      (n = 2 ∧ 224 ≤ a.toNat ∧ a.toNat ≤ 239) ∨ (n = 3 ∧ 240 ≤ a.toNat ∧ a.toNat ≤ 244) := by
  rw [tailCount_eq] at h
  grind

/-! ## Reading back -/

theorem toList_loop (bytes : ByteArray) (i : Nat) (r : Bytes) :
    ByteArray.toList.loop bytes i r = r.reverse ++ bytes.data.toList.drop i := by
  fun_induction ByteArray.toList.loop bytes i r with
  | case1 i r h ih =>
    have inside : i < bytes.data.toList.length := h
    have here : bytes.get! i = bytes.data.toList[i] := by
      simp [ByteArray.get!, getElem!_pos bytes.data i h]
    rw [ih, List.reverse_cons, here, List.append_assoc, List.singleton_append,
      List.drop_eq_getElem_cons inside]
  | case2 i r h =>
    have past : bytes.data.toList.length ≤ i := Nat.not_lt.mp h
    rw [List.drop_eq_nil_of_le past, List.append_nil]

theorem encode_ofList (cs : List Char) :
    encode (String.ofList cs) = cs.flatMap String.utf8EncodeChar := by
  rw [encode, String.toUTF8_eq_toByteArray, String.toByteArray_ofList, ByteArray.toList,
    toList_loop, List.utf8Encode, List.toList_data_toByteArray]
  rfl

theorem first_of_ascii {a : UInt8} {s : Bytes} (ha : a.toNat < 128) :
    first a s = (some (Char.ofNat a.toNat), 0) := by
  have none : tails a 0 s = [] := by cases s <;> simp [tails]
  have count : tailCount a = some 0 := by rw [tailCount_eq, if_pos ha]
  simp [first, count, none, scalar]

/-- A first byte takes the tails it asks for, if they are there. -/
theorem first_of_tails {a b : UInt8} {ts s : Bytes} (hn : tailCount a = some (ts.length + 1))
    (hb : isSecond a b = true) (hts : ∀ t ∈ ts, isTail t = true) :
    first a (b :: ts ++ s) = (some (scalar a (b :: ts)), ts.length + 1) := by
  have taken : tails a (ts.length + 1) (b :: ts ++ s) = b :: ts := by
    have all : ts.takeWhile isTail = ts := by
      rw [← List.append_nil ts, List.takeWhile_append_of_pos hts, List.takeWhile_nil]
    simp [tails, hb, all]
  simp only [first, hn, taken, List.length_cons, if_true]

theorem piecesFrom_append (skipped s : Bytes) :
    piecesFrom skipped.length (skipped ++ s) = pieces s := by
  induction skipped with
  | nil => rfl
  | cons b skipped ih => exact ih

theorem pieces_cons {a : UInt8} {s : Bytes} {c : Char} (h : first a s = (some c, 0)) :
    pieces (a :: s) = some c :: pieces s := by
  rw [pieces, piecesFrom, h]
  rfl

theorem pieces_of_tails {a b : UInt8} (ts s : Bytes) (hn : tailCount a = some (ts.length + 1))
    (hb : isSecond a b = true) (hts : ∀ t ∈ ts, isTail t = true) :
    pieces (a :: b :: ts ++ s) = some (scalar a (b :: ts)) :: pieces s := by
  have taken := first_of_tails (s := s) hn hb hts
  rw [pieces, List.cons_append, List.cons_append, piecesFrom, ← List.cons_append, taken]
  exact congrArg _ (piecesFrom_append (b :: ts) s)

theorem toNat_offset {n m k : Nat} (hm : 0 < m) (h : m + k ≤ 256) :
    (UInt8.ofNat (n % m + k)).toNat = n % m + k := by
  have small := Nat.mod_lt n hm
  apply UInt8.toNat_ofNat_of_lt'
  change n % m + k < 256
  omega

theorem toNat_tail (n : Nat) : (UInt8.ofNat (n % 64 + 128)).toNat = n % 64 + 128 :=
  toNat_offset (by decide) (by decide)

theorem isTail_tail (n : Nat) : isTail (UInt8.ofNat (n % 64 + 128)) = true := by
  rw [isTail_iff, toNat_tail]
  omega

/-- The bytes of a character are one piece. -/
theorem pieces_utf8EncodeChar (c : Char) (s : Bytes) :
    pieces (String.utf8EncodeChar c ++ s) = some c :: pieces s := by
  have valid : c.val.toNat < 0xD800 ∨ (0xDFFF < c.val.toNat ∧ c.val.toNat < 0x110000) := c.valid
  have spelled : ∀ n, n = c.val.toNat → Char.ofNat n = c := fun n h => h ▸ Char.ofNat_toNat c
  unfold String.utf8EncodeChar
  generalize c.val.toNat = v at *
  -- The value decides how many tails there are, and each form spells the value.
  dsimp only
  split
  · have value : (UInt8.ofNat v).toNat = v := by
      apply UInt8.toNat_ofNat_of_lt'
      change v < 256
      omega
    refine pieces_cons ?_
    change first (UInt8.ofNat v) s = _
    rw [first_of_ascii (by omega), value, spelled _ rfl]
  · split
    · have lead : (UInt8.ofNat (v / 64 % 0x20 + 0xc0)).toNat = v / 64 % 0x20 + 0xc0 :=
        toNat_offset (by decide) (by decide)
      refine (pieces_of_tails [] s ?_ ?_ ?_).trans ?_
      · rw [tailCount_eq, lead]
        grind
      · rw [isSecond_iff, lead, toNat_tail]
        omega
      · simp
      · congr 2
        refine spelled _ ?_
        simp only [List.isEmpty_cons, Bool.false_eq_true, if_false, List.foldl_cons, List.foldl_nil,
          List.length_cons, List.length_nil, Nat.pow_eq, lead, toNat_tail]
        omega
    · split
      · have lead : (UInt8.ofNat (v / 4096 % 0x10 + 0xe0)).toNat = v / 4096 % 0x10 + 0xe0 :=
          toNat_offset (by decide) (by decide)
        refine (pieces_of_tails [UInt8.ofNat (v % 64 + 128)] s ?_ ?_ ?_).trans ?_
        · rw [tailCount_eq, lead]
          grind
        · rw [isSecond_iff, lead, toNat_tail]
          omega
        · simpa using isTail_tail v
        · congr 2
          refine spelled _ ?_
          simp only [List.isEmpty_cons, Bool.false_eq_true, if_false, List.foldl_cons,
            List.foldl_nil, List.length_cons, List.length_nil, Nat.pow_eq, lead, toNat_tail]
          omega
      · have lead : (UInt8.ofNat (v / 262144 % 0x08 + 0xf0)).toNat = v / 262144 % 0x08 + 0xf0 :=
          toNat_offset (by decide) (by decide)
        refine (pieces_of_tails
          [UInt8.ofNat (v / 64 % 64 + 128), UInt8.ofNat (v % 64 + 128)] s ?_ ?_ ?_).trans ?_
        · rw [tailCount_eq, lead]
          grind
        · rw [isSecond_iff, lead, toNat_tail]
          omega
        · exact List.forall_mem_cons.mpr ⟨isTail_tail _, by simpa using isTail_tail v⟩
        · congr 2
          refine spelled _ ?_
          simp only [List.isEmpty_cons, Bool.false_eq_true, if_false, List.foldl_cons,
            List.foldl_nil, List.length_cons, List.length_nil, Nat.pow_eq, lead, toNat_tail]
          omega

theorem pieces_flatMap (cs : List Char) :
    pieces (cs.flatMap String.utf8EncodeChar) = cs.map some := by
  induction cs with
  | nil => rfl
  | cons c cs ih => rw [List.flatMap_cons, pieces_utf8EncodeChar, ih, List.map_cons]

theorem wellFormed_map_some (cs : List Char) : wellFormed (cs.map some) = some cs := by
  induction cs with
  | nil => rfl
  | cons c cs ih => rw [List.map_cons, wellFormed, ih, Option.map_some]

/-- A text is read back from its bytes. -/
theorem decode?_encode (text : String) : decode? (encode text) = some text := by
  obtain ⟨cs, rfl⟩ : ∃ cs, text = String.ofList cs := ⟨text.toList, String.ofList_toList.symm⟩
  rw [decode?, encode_ofList, pieces_flatMap, wellFormed_map_some, Option.map_some]

theorem encode_injective : Function.Injective encode := by
  intro s t h
  have read := decode?_encode s
  rw [h, decode?_encode] at read
  exact (Option.some.inj read).symm

/-! ## Line feeds -/

theorem eq_of_ofNat_eq_lineFeed {n : Nat} (h : Char.ofNat n = '\n') : n = 10 := by
  by_cases valid : n.isValidChar
  · rw [Char.ofNat, dif_pos valid] at h
    exact congrArg (fun c : Char => c.val.toNat) h
  · rw [Char.ofNat, dif_neg valid] at h
    cases h

theorem tail_of_mem_tails {a b : UInt8} {n : Nat} {s : Bytes} (h : b ∈ tails a n s) :
    128 ≤ b.toNat ∧ b.toNat ≤ 191 := by
  cases s with
  | nil => simp [tails] at h
  | cons c s =>
    simp only [tails] at h
    split at h
    · simp at h
    · rename_i ok
      simp only [Bool.or_eq_true, Bool.not_eq_true', not_or, Bool.not_eq_false] at ok
      rcases List.mem_cons.mp h with rfl | h
      · obtain ⟨low, high, -⟩ := isSecond_iff.mp ok.2
        exact ⟨low, high⟩
      · exact isTail_iff.mp (List.all_eq_true.mp List.all_takeWhile b h)

theorem tails_isPrefix (a : UInt8) (n : Nat) (s : Bytes) : tails a n s <+: s := by
  cases s with
  | nil => exact List.prefix_rfl
  | cons b s =>
    simp only [tails]
    split
    · exact List.nil_prefix
    · exact (List.prefix_cons_inj b).mpr
        ((List.takeWhile_prefix isTail).trans (List.take_prefix _ _))

theorem first_snd (a : UInt8) (s : Bytes) :
    (first a s).2 = (((tailCount a).map fun n => tails a n s).getD []).length := by
  unfold first
  split <;> simp [*]

/-- What a first byte takes with it are tails. -/
theorem tail_of_mem_take_first {a b : UInt8} {s : Bytes} (taken : b ∈ s.take (first a s).2) :
    128 ≤ b.toNat ∧ b.toNat ≤ 191 := by
  rw [first_snd] at taken
  cases count : tailCount a with
  | none => simp [count] at taken
  | some n =>
    rw [count, Option.map_some, Option.getD_some,
      ← List.prefix_iff_eq_take.mp (tails_isPrefix a n s)] at taken
    exact tail_of_mem_tails taken

/-- No line feed is among the bytes that a first byte takes with it. -/
theorem count_take_first (a : UInt8) (s : Bytes) : (s.take (first a s).2).count 10 = 0 := by
  refine List.count_eq_zero.mpr fun taken => ?_
  exact absurd (tail_of_mem_take_first taken).1 (by decide)

theorem second_of_tails {a b : UInt8} {n : Nat} {s ts : Bytes} (h : tails a n s = b :: ts) :
    isSecond a b = true := by
  cases s with
  | nil => simp [tails] at h
  | cons c s =>
    simp only [tails] at h
    split at h
    · simp at h
    · rename_i ok
      obtain ⟨rfl, -⟩ := List.cons_eq_cons.mp h
      simp only [Bool.or_eq_true, Bool.not_eq_true', not_or, Bool.not_eq_false] at ok
      exact ok.2

theorem scalar_eq_lineFeed {a : UInt8} {n : Nat} {s : Bytes} (hn : tailCount a = some n)
    (hl : (tails a n s).length = n) (h : scalar a (tails a n s) = '\n') : a = 10 := by
  have value := eq_of_ofNat_eq_lineFeed h
  have second : ∀ b ts, tails a n s = b :: ts → isSecond a b = true := fun _ _ => second_of_tails
  -- The first tail keeps every longer form above the values that need fewer bytes.
  generalize tails a n s = ts at *
  rcases tailCount_cases hn with ⟨rfl, ha⟩ | ⟨rfl, ha⟩ | ⟨rfl, ha⟩ | ⟨rfl, ha⟩
  · rw [List.eq_nil_of_length_eq_zero hl] at value
    exact UInt8.toNat_inj.mp value
  · obtain ⟨b, rfl⟩ := List.length_eq_one_iff.mp hl
    simp at value
    omega
  · obtain ⟨b, c, rfl⟩ := List.length_eq_two.mp hl
    have := isSecond_iff.mp (second b [c] rfl)
    simp at value
    omega
  · obtain ⟨b, c, d, rfl⟩ := List.length_eq_three.mp hl
    have := isSecond_iff.mp (second b [c, d] rfl)
    simp at value
    omega

theorem first_eq_lineFeed {a : UInt8} {s : Bytes} : (first a s).1 = some '\n' ↔ a = 10 := by
  constructor
  · intro h
    unfold first at h
    split at h
    · simp at h
    · rename_i n hn
      simp only at h
      split at h
      · exact scalar_eq_lineFeed hn ‹_› (Option.some.inj h)
      · simp at h
  · rintro rfl
    cases s <;> rfl

theorem count_piecesFrom (skip : Nat) (s : Bytes) :
    (piecesFrom skip s).count (some '\n') = (s.drop skip).count 10 := by
  induction s generalizing skip with
  | nil => cases skip <;> simp [piecesFrom]
  | cons a s ih =>
    cases skip with
    | succ skip => exact ih skip
    | zero =>
      have taken := count_take_first a s
      have whole := congrArg (List.count 10) (List.take_append_drop (first a s).2 s)
      rw [List.count_append, taken, Nat.zero_add] at whole
      rw [piecesFrom, List.count_cons, ih, whole, List.drop_zero, List.count_cons]
      simp only [beq_iff_eq, first_eq_lineFeed]

/-- A text has the line feeds of the bytes that it is read from. -/
theorem count_decodeLossy (bytes : Bytes) :
    (decodeLossy bytes).toList.count '\n' = bytes.count 10 := by
  have plain : ∀ ps : List (Option Char),
      (ps.map fun p => p.getD '\uFFFD').count '\n' = ps.count (some '\n') := by
    intro ps
    induction ps with
    | nil => rfl
    | cons p ps ih =>
      rw [List.map_cons, List.count_cons, ih, List.count_cons]
      cases p with
      | none => rfl
      | some c => simp
  rw [decodeLossy, String.toList_ofList, plain, pieces, count_piecesFrom, List.drop_zero]

/-! ## Bytes of no text -/

theorem not_mem_of_wellFormed {skip : Nat} {s : Bytes} {cs : List Char}
    (read : wellFormed (piecesFrom skip s) = some cs) : 255 ∉ s.drop skip := by
  induction s generalizing skip cs with
  | nil => simp
  | cons a s ih =>
    cases skip with
    | succ skip => exact ih read
    | zero =>
      rw [piecesFrom] at read
      cases piece : (first a s).1 with
      | none =>
        rw [piece] at read
        cases read
      | some c =>
        rw [piece, wellFormed] at read
        obtain ⟨ds, rest, -⟩ := Option.map_eq_some_iff.mp read
        rw [List.drop_zero, List.mem_cons, ← List.take_append_drop (first a s).2 s, List.mem_append]
        rintro (rfl | taken | later)
        · cases piece
        · exact absurd (tail_of_mem_take_first taken).2 (by decide)
        · exact ih rest later

/-- A byte that neither starts nor continues a sequence is in no text. -/
theorem decode?_eq_none {bytes : Bytes} (listed : 255 ∈ bytes) : decode? bytes = none := by
  rw [decode?, Option.map_eq_none_iff, Option.eq_none_iff_forall_ne_some]
  exact fun cs read => not_mem_of_wellFormed read listed

/-! ## Order -/

/-- The digits that the tails of the longest form carry decide which of two values is less. -/
theorem lt_digits {v w : Nat} (lt : v < w) (valid : w < 0x110000) :
    v / 262144 % 8 < w / 262144 % 8 ∨ v / 262144 % 8 = w / 262144 % 8 ∧
      (v / 4096 % 64 < w / 4096 % 64 ∨ v / 4096 % 64 = w / 4096 % 64 ∧
        (v / 64 % 64 < w / 64 % 64 ∨ v / 64 % 64 = w / 64 % 64 ∧ v % 64 < w % 64)) := by
  have first : v / 262144 % 8 = v / 262144 := Nat.mod_eq_of_lt (by omega)
  have first' : w / 262144 % 8 = w / 262144 := Nat.mod_eq_of_lt (by omega)
  have second : v / 4096 / 64 = v / 262144 := Nat.div_div_eq_div_mul ..
  have second' : w / 4096 / 64 = w / 262144 := Nat.div_div_eq_div_mul ..
  have third : v / 64 / 64 = v / 4096 := Nat.div_div_eq_div_mul ..
  have third' : w / 64 / 64 = w / 4096 := Nat.div_div_eq_div_mul ..
  omega

/-- Of two characters the one with the lesser value has the lesser bytes, whatever follows. -/
theorem utf8EncodeChar_append_lt {c d : Char} (lt : c < d) (s t : Bytes) :
    String.utf8EncodeChar c ++ s < String.utf8EncodeChar d ++ t := by
  have below : c.val.toNat < d.val.toNat := lt
  have valid : d.val.toNat < 0x110000 := by
    rcases d.valid with low | high
    · exact Nat.lt_trans low (by decide)
    · exact high.2
  have digits := lt_digits below valid
  unfold String.utf8EncodeChar
  generalize c.val.toNat = v at *
  generalize d.val.toNat = w at *
  have two := fun n : Nat => toNat_offset (n := n) (m := 0x20) (k := 0xc0) (by decide) (by decide)
  have three := fun n : Nat => toNat_offset (n := n) (m := 0x10) (k := 0xe0) (by decide) (by decide)
  have four := fun n : Nat => toNat_offset (n := n) (m := 8) (k := 0xf0) (by decide) (by decide)
  dsimp only
  -- A longer form has a greater first byte; in one form the first bytes that differ decide.
  split_ifs <;>
    simp only [List.cons_append, List.nil_append, List.cons_lt_cons_iff, UInt8.lt_iff_toNat_lt,
      ← UInt8.toNat_inj, two, three, four, toNat_tail, UInt8.toNat_ofNat'] <;>
    omega

theorem utf8EncodeChar_ne_nil (c : Char) : String.utf8EncodeChar c ≠ [] := by
  unfold String.utf8EncodeChar
  dsimp only
  split_ifs <;> simp

theorem flatMap_lt {cs ds : List Char} (lt : cs < ds) :
    cs.flatMap String.utf8EncodeChar < ds.flatMap String.utf8EncodeChar := by
  induction cs generalizing ds with
  | nil =>
    cases ds with
    | nil => cases lt
    | cons d ds =>
      rw [List.flatMap_nil, List.flatMap_cons]
      cases spelled : String.utf8EncodeChar d with
      | nil => exact absurd spelled (utf8EncodeChar_ne_nil d)
      | cons b bs => exact List.nil_lt_cons ..
  | cons c cs ih =>
    cases ds with
    | nil => cases lt
    | cons d ds =>
      rw [List.flatMap_cons, List.flatMap_cons]
      rcases List.cons_lt_cons_iff.mp lt with before | ⟨rfl, rest⟩
      · exact utf8EncodeChar_append_lt before ..
      · exact List.append_left_lt (ih rest)

/-- Texts are in the order of their bytes. -/
theorem encode_lt_iff {s t : String} : encode s < encode t ↔ s < t := by
  have forward : ∀ {s t : String}, s < t → encode s < encode t := by
    intro s t lt
    rw [← String.ofList_toList (s := s), ← String.ofList_toList (s := t), encode_ofList,
      encode_ofList]
    exact flatMap_lt (String.lt_iff.mp lt)
  constructor
  · intro lt
    rcases Std.lt_trichotomy s t with before | rfl | after
    · exact before
    · exact absurd lt (List.lt_irrefl _)
    · exact absurd lt (List.lt_asymm (forward after))
  · exact forward

end Utf8

end CodeSearch
