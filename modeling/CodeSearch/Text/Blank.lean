/-! # White space

A blank is a character with the Unicode property `White_Space`. Trimming drops blanks
at both ends, and words are the longest runs without blanks.
-/

namespace CodeSearch

/-- The characters with the property `White_Space`. -/
def isBlank (c : Char) : Bool :=
  let n := c.toNat
  (9 ≤ n && n ≤ 13) || n = 0x20 || n = 0x85 || n = 0xA0 || n = 0x1680 ||
  (0x2000 ≤ n && n ≤ 0x200A) || n = 0x2028 || n = 0x2029 || n = 0x202F || n = 0x205F ||
  n = 0x3000

namespace Text

def trimStart (cs : List Char) : List Char := cs.dropWhile isBlank

def trimEnd (cs : List Char) : List Char := (cs.reverse.dropWhile isBlank).reverse

/-- Drop the blanks at both ends. -/
def trim (s : String) : String := String.ofList (trimEnd (trimStart s.toList))

/-- A text unless it is empty. -/
def nonempty? (s : String) : Option String := if s = "" then none else some s

/-- A text of blanks only. -/
def isBlankText (s : String) : Bool := s.toList.all isBlank

/-- The maximal runs of characters that fail a test, given the run read so far. -/
def runsFrom (p : Char → Bool) (run : List Char) : List Char → List (List Char)
  | [] => if run.isEmpty then [] else [run.reverse]
  | c :: cs =>
    if p c then
      if run.isEmpty then runsFrom p [] cs else run.reverse :: runsFrom p [] cs
    else runsFrom p (c :: run) cs

def words (s : String) : List String := (runsFrom isBlank [] s.toList).map String.ofList

/-- The words of a text with one space between neighbours. -/
def collapse (s : String) : String := " ".intercalate (words s)

theorem mem_runsFrom {p : Char → Bool} {run cs w : List Char} (hrun : ∀ c ∈ run, p c = false)
    (h : w ∈ runsFrom p run cs) : w ≠ [] ∧ ∀ c ∈ w, p c = false := by
  induction cs generalizing run with
  | nil =>
    unfold runsFrom at h
    split at h <;> simp_all
  | cons c cs ih =>
    unfold runsFrom at h
    split at h
    · split at h
      · exact ih (by simp) h
      · rcases List.mem_cons.1 h with rfl | h
        · simp_all
        · exact ih (by simp) h
    · rename_i hc
      exact ih (by simp_all) h

/-- A word is not empty and holds no blank. -/
theorem mem_words {s w : String} (h : w ∈ words s) :
    w.toList ≠ [] ∧ ∀ c ∈ w.toList, isBlank c = false := by
  obtain ⟨cs, hcs, rfl⟩ := List.mem_map.1 h
  simpa using mem_runsFrom (by simp) hcs

end Text

end CodeSearch
