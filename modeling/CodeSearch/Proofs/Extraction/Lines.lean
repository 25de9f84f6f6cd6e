import CodeSearch.Extraction.Pass
import CodeSearch.Proofs.Tree.Nesting

/-! # Lines of chunks

A line is told by the line feeds before a byte. A chunk is said to end on the line of the byte after
its construct. This is the line of the last byte of the construct, unless that byte is a line feed.
-/

namespace CodeSearch

namespace Span

/-- The span without its last byte. -/
def dropLast (s : Span) : Span := ⟨s.start, s.stop - 1⟩

/-- What comes before the stop of a span comes before its start or lies in it. -/
theorem take_stop {α : Type} {s : Span} (h : s.start ≤ s.stop) (xs : List α) :
    xs.take s.stop = xs.take s.start ++ s.slice xs := by
  rw [slice, ← List.take_add]
  congr 1
  omega

end Span

namespace Found

variable {source : Bytes} {file : String} {f : Found} {s : Span} {i j : Nat}

theorem lineFeeds_mono (le : i ≤ j) : lineFeeds source i ≤ lineFeeds source j :=
  (List.take_sublist_take_left le).count_le 10

theorem lineFeeds_le_length (source : Bytes) (i : Nat) : lineFeeds source i ≤ source.length :=
  Nat.le_trans ((List.take_sublist i source).count_le 10) List.count_le_length

theorem lineFeeds_stop (source : Bytes) (h : s.start ≤ s.stop) :
    lineFeeds source s.stop = lineFeeds source s.start + (s.slice source).count 10 := by
  simp only [lineFeeds, Span.take_stop h, List.count_append]

theorem lineFeeds_succ (source : Bytes) (i : Nat) :
    lineFeeds source (i + 1) = lineFeeds source i + if source[i]? = some 10 then 1 else 0 := by
  rw [lineFeeds, List.take_add_one, List.count_append, ← lineFeeds]
  cases source[i]? with
  | none => rfl
  | some b => by_cases same : b = 10 <;> simp [same]

/-- The last byte of the construct is a line feed. -/
def EndsLine (source : Bytes) (f : Found) : Prop := source[f.span.stop - 1]? = some 10

instance (source : Bytes) (f : Found) : Decidable (f.EndsLine source) :=
  inferInstanceAs (Decidable (_ = _))

/-- The chunk ends on the line of the last byte, and it has one line more than there are line feeds
before that byte in the construct. -/
structure Inclusive (source : Bytes) (file : String) (f : Found) : Prop where
  endLine : (f.toChunk source file).endLine = lineFeeds source (f.span.stop - 1) + 1
  lineCount : (f.toChunk source file).lineCount? = some ((f.span.dropLast.slice source).count 10 + 1)

/-- Where the chunk of a construct with bytes of its own ends. -/
theorem endLine_eq (source : Bytes) (file : String) (filled : f.span.start < f.span.stop) :
    (f.toChunk source file).endLine =
      lineFeeds source (f.span.stop - 1) + 1 + if f.EndsLine source then 1 else 0 := by
  have last : f.span.stop = f.span.stop - 1 + 1 := by omega
  have feeds := lineFeeds_succ source (f.span.stop - 1)
  rw [← last] at feeds
  change lineFeeds source f.span.stop + 1 = _ + 1 + ite (source[f.span.stop - 1]? = some 10) 1 0
  omega

/-- The lines of a chunk are those of its text, if the source is not as long as all words. -/
theorem lineCount?_eq (file : String) (filled : f.span.start < f.span.stop)
    (small : source.length + 1 < wordSize) :
    (f.toChunk source file).lineCount? =
      some ((f.span.dropLast.slice source).count 10 + 1 + if f.EndsLine source then 1 else 0) := by
  have ends := endLine_eq source file filled
  have within : f.span.dropLast.start ≤ f.span.dropLast.stop := by
    simp only [Span.dropLast]
    omega
  have inside := lineFeeds_stop source within
  have few : lineFeeds source f.span.stop ≤ source.length := lineFeeds_le_length source _
  have lines : (f.toChunk source file).lines =
      lineFeeds source f.span.stop + 1 - (lineFeeds source f.span.start + 1) + 1 := rfl
  simp only [Span.dropLast] at inside
  change lineFeeds source f.span.stop + 1 = _ at ends
  refine fit?_eq_some_iff.mpr ⟨?_, ?_⟩
  · omega
  · simp only [Span.dropLast]
    omega

end Found

namespace Pass

/-- The chunk of a construct with bytes of its own ends on the line of the last byte if and only if
that byte is no line feed. Otherwise it is said to end a line later and to have a line more. -/
theorem inclusive_iff (s : Setting) (t : Tree) (file : String)
    (small : s.source.length + 1 < wordSize) :
    ∀ f ∈ found s t, f.span.start < f.span.stop →
      f.toChunk s.source file ∈ s.chunks file t ∧
      (f.Inclusive s.source file ↔ ¬f.EndsLine s.source) ∧
      (f.EndsLine s.source →
        (f.toChunk s.source file).endLine = Found.lineFeeds s.source (f.span.stop - 1) + 2 ∧
        (f.toChunk s.source file).lineCount? =
          some ((f.span.dropLast.slice s.source).count 10 + 2)) := by
  intro f listed filled
  have ends := Found.endLine_eq s.source file filled
  have counts := Found.lineCount?_eq file filled small
  refine ⟨Setting.mem_chunks.mpr ⟨f, listed, rfl⟩, ⟨?_, ?_⟩, ?_⟩
  · rintro ⟨endLine, -⟩ last
    rw [if_pos last] at ends
    omega
  · intro other
    rw [if_neg other] at ends counts
    exact ⟨ends, counts⟩
  · intro last
    rw [if_pos last] at ends counts
    exact ⟨ends, counts⟩

/-- The tree of a comment that a backslash continues on an empty line. -/
def continued : Tree :=
  .plain "translation_unit" 0 8 none [.plain "comment" 0 7 none []]

/-- A comment with the end of its line in it covers one line and is said to have two. -/
theorem not_inclusive_continued :
    let s : Setting := ⟨.standard, .c, Utf8.encode "// a \\\n\n"⟩
    continued.WellFormed ∧ ∃ f ∈ found s continued, f.span = ⟨0, 7⟩ ∧
      f.toChunk s.source "s.c" ∈ s.chunks "s.c" continued ∧ ¬f.Inclusive s.source "s.c" ∧
      Found.lineFeeds s.source (f.span.stop - 1) + 1 = 1 ∧
      (f.toChunk s.source "s.c").endLine = 2 := by
  intro s
  have kept : found s continued = [⟨.plain "comment" 0 7 none [], .ofComment⟩] := by rfl
  have listed : ⟨.plain "comment" 0 7 none [], .ofComment⟩ ∈ found s continued :=
    kept ▸ List.mem_singleton_self _
  have last : Found.EndsLine s.source ⟨.plain "comment" 0 7 none [], .ofComment⟩ := by
    decide +kernel
  obtain ⟨chunk, exact_, later⟩ := inclusive_iff s continued "s.c" (by decide +kernel) _ listed
    (by decide)
  refine ⟨by decide, _, listed, rfl, chunk, fun inclusive => exact_.mp inclusive last, ?_, ?_⟩
  · decide +kernel
  · decide +kernel

end Pass

end CodeSearch
