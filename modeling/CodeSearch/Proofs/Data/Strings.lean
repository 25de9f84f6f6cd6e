import Mathlib.Data.Option.Basic
import CodeSearch.Data.Json.Printer
import CodeSearch.Data.Json.Reader

/-! # Strings in a text

A string in quotes is read as it was. Every character is written as one piece: itself, a
short escape, or the escape of its code.
-/

namespace CodeSearch

namespace Json

variable {c e : Char} {cs rest : List Char} {ps : List Piece} {n : Nat}

/-- The parts of a string with one more in front. -/
def withPiece (p : Piece) (x : List Piece × List Char) : List Piece × List Char := (p :: x.1, x.2)

theorem pieces_escape (short : escape? e = some c) :
    pieces ('\\' :: e :: cs) = (pieces cs).map (withPiece (.char c)) := by
  have other : e ≠ 'u' := by
    rintro rfl
    have unknown : escape? 'u' = none := rfl
    rw [unknown] at short
    cases short
  rw [pieces, short]
  · cases pieces cs <;> rfl
  · intro _ _ _ _ _ same
    exact absurd same other

theorem pieces_code (control : n < 32) :
    pieces ('\\' :: 'u' :: '0' :: '0' :: Hex.digit (n / 16) :: Hex.digit (n % 16) :: cs) =
      (pieces cs).map (withPiece (.unit n)) := by
  have value : ∀ n < 32,
      Hex.value? ['0', '0', Hex.digit (n / 16), Hex.digit (n % 16)] = some n := by decide
  rw [pieces, value n control]
  cases pieces cs <;> rfl

theorem pieces_plain (quotes : c ≠ '"') (slash : c ≠ '\\') (plain : ' ' ≤ c) :
    pieces (c :: cs) = (pieces cs).map (withPiece (.char c)) := by
  have visible : (' ' ≤ c && c ≠ '\\') = true := by simp [plain, slash]
  rw [pieces]
  · rewrite [visible]
    cases pieces cs <;> rfl
  · intro same
    exact quotes same
  · intro _ _ _ _ _ same
    exact absurd same slash
  · intro _ _ same
    exact absurd same slash

/-- The characters of a piece that stands for one. -/
theorem characters_char : characters (.char c :: ps) = (characters ps).map (c :: ·) := rfl

theorem characters_control (control : c.toNat < 32) :
    characters (.unit c.toNat :: ps) = (characters ps).map (c :: ·) := by
  have below : c.toNat < 0xD800 := by omega
  rw [characters.eq_def]
  simp [below]

/-- A character is written as one piece that stands for it. -/
theorem exists_piece (c : Char) :
    ∃ p, (∀ cs, pieces (quoteChar c ++ cs) = (pieces cs).map (withPiece p)) ∧
    ∀ ps, characters (p :: ps) = (characters ps).map (c :: ·) := by
  unfold quoteChar
  split
  · rename_i same
    subst same
    exact ⟨.char '"', fun _ => pieces_escape rfl, fun _ => characters_char⟩
  split
  · rename_i same
    subst same
    exact ⟨.char '\\', fun _ => pieces_escape rfl, fun _ => characters_char⟩
  split
  · rename_i same
    subst same
    exact ⟨.char '\x08', fun _ => pieces_escape rfl, fun _ => characters_char⟩
  split
  · rename_i same
    subst same
    exact ⟨.char '\x0c', fun _ => pieces_escape rfl, fun _ => characters_char⟩
  split
  · rename_i same
    subst same
    exact ⟨.char '\n', fun _ => pieces_escape rfl, fun _ => characters_char⟩
  split
  · rename_i same
    subst same
    exact ⟨.char '\r', fun _ => pieces_escape rfl, fun _ => characters_char⟩
  split
  · rename_i same
    subst same
    exact ⟨.char '\t', fun _ => pieces_escape rfl, fun _ => characters_char⟩
  split
  · rename_i control
    have code : c.toNat < 32 := control
    exact ⟨.unit c.toNat, fun _ => pieces_code code, fun _ => characters_control code⟩
  · rename_i quotes slash _ _ _ _ _ plain
    exact ⟨.char c, fun _ => pieces_plain quotes slash (Char.not_lt.mp plain),
      fun _ => characters_char⟩

theorem pieces_quoted (cs rest : List Char) :
    ∃ ps, pieces (cs.flatMap quoteChar ++ '"' :: rest) = some (ps, rest) ∧
      characters ps = some cs := by
  induction cs with
  | nil => exact ⟨[], by rw [List.flatMap_nil, List.nil_append, pieces], rfl⟩
  | cons c cs ih =>
    obtain ⟨ps, read, chars⟩ := ih
    obtain ⟨p, first, means⟩ := exists_piece c
    refine ⟨p :: ps, ?_, ?_⟩
    · rw [List.flatMap_cons, List.append_assoc, first, read]
      rfl
    · rw [means, chars]
      rfl

/-- A string in quotes is read as it was, whatever follows. -/
theorem pieces_quote (s : String) (rest : List Char) :
    ∃ ps, quote s ++ rest = '"' :: (s.toList.flatMap quoteChar ++ '"' :: rest) ∧
      pieces (s.toList.flatMap quoteChar ++ '"' :: rest) = some (ps, rest) ∧
        string ps = .text s ∧ name ps = some s := by
  obtain ⟨ps, read, chars⟩ := pieces_quoted s.toList rest
  refine ⟨ps, ?_, read, ?_, ?_⟩
  · simp [quote]
  · rw [string, chars]
    simp
  · rw [name, chars]
    simp

end Json

end CodeSearch
