import CodeSearch.Proofs.Indexing.Identity

/-! # Which ids are ambiguous

The bytes under an id have bars between the source, the line and the text, and a source or a text may
have bars too. So a source can swallow another one with its line and the start of its text, and then
the bytes of two chunks are equal. This is the only way, and it takes a source that goes on after
another one with a bar, a number and a bar.
-/

namespace CodeSearch

/-- A list that goes on after a mark with an item, which has no mark, and one more mark, read in two
ways: the first parts are equal, or the longer one takes in the item and some of what comes then. -/
theorem eq_nil_or_swallows {α : Type} {x : α} {r as bs cs ds : List α} (ha : x ∉ as) (hb : x ∉ bs)
    (h : x :: (as ++ x :: cs) = r ++ x :: (bs ++ x :: ds)) :
    (r = [] ∧ as = bs ∧ cs = ds) ∨
      ∃ taken, r ++ [x] = x :: (as ++ x :: taken) ∧ cs = taken ++ (bs ++ x :: ds) := by
  cases r with
  | nil => exact .inl ⟨rfl, parts_eq_of_notMem ha hb (List.cons.inj h).2⟩
  | cons y r =>
    obtain ⟨rfl, rest⟩ := List.cons.inj h
    have whole : (as ++ [x]) ++ cs = (r ++ [x]) ++ (bs ++ x :: ds) := by simpa using rest
    right
    rcases List.append_eq_append_iff.mp whole with ⟨taken, longer, left⟩ | ⟨more, shorter, left⟩
    · exact ⟨taken, by simp [longer], left⟩
    · -- the mark after the item is the first one, so nothing of the item is left over
      rcases List.eq_nil_or_concat more with rfl | ⟨front, last, rfl⟩
      · exact ⟨[], by simpa using shorter.symm, by simpa using left.symm⟩
      · rw [List.concat_eq_append, ← List.append_assoc] at shorter
        obtain ⟨same, -⟩ := List.append_inj' shorter rfl
        refine absurd ?_ ha
        rw [same]
        simp

/-- What an id is made of. -/
@[ext]
structure Origin where
  source : String
  startLine : Nat
  content : String
  deriving DecidableEq

namespace Origin

def ofChunk (c : Chunk) : Origin := ⟨c.source, c.startLine, c.content⟩

/-- The bytes that are digested. -/
def bytes (o : Origin) : Bytes := idBytes o.source o.startLine o.content

/-- The source takes in the source and the line of another origin and some of its text, which goes
on with what is left. The last bar taken in may be the one after the source. -/
def Swallows (p o : Origin) : Prop :=
  ∃ taken : String,
    p.source ++ "|" = o.source ++ "|" ++ toString o.startLine ++ "|" ++ taken ∧
      o.content = taken ++ toString p.startLine ++ "|" ++ p.content

/-- The characters under an id. -/
def chars (o : Origin) : List Char :=
  o.source.toList ++ '|' :: ((toString o.startLine).toList ++ '|' :: o.content.toList)

variable {o p : Origin}

theorem bytes_eq_iff_chars : o.bytes = p.bytes ↔ o.chars = p.chars := by
  have spelled (o : Origin) : (o.source ++ "|" ++ toString o.startLine ++ "|" ++ o.content).toList =
      o.chars := by
    simp [chars]
  rw [← spelled, ← spelled, String.toList_inj]
  exact Utf8.encode_injective.eq_iff

theorem swallows_iff : p.Swallows o ↔ ∃ taken : List Char,
    p.source.toList ++ ['|'] =
      o.source.toList ++ '|' :: ((toString o.startLine).toList ++ '|' :: taken) ∧
    o.content.toList = taken ++ ((toString p.startLine).toList ++ '|' :: p.content.toList) := by
  constructor
  · rintro ⟨taken, source, content⟩
    refine ⟨taken.toList, ?_, ?_⟩
    · simpa using congrArg String.toList source
    · simpa using congrArg String.toList content
  · rintro ⟨taken, source, content⟩
    refine ⟨String.ofList taken, ?_, ?_⟩
    · apply String.toList_inj.mp
      simpa using source
    · apply String.toList_inj.mp
      simpa using content

theorem chars_eq_of_swallows (h : p.Swallows o) : o.chars = p.chars := by
  obtain ⟨taken, source, content⟩ := swallows_iff.mp h
  calc o.chars = (o.source.toList ++ '|' :: ((toString o.startLine).toList ++ '|' :: taken)) ++
        ((toString p.startLine).toList ++ '|' :: p.content.toList) := by simp [chars, content]
    _ = p.chars := by
        rw [← source]
        simp [chars]

/-- If one source starts with the other, equal characters come from equal origins or one that
swallows the other. -/
theorem eq_or_swallows {r : List Char} (longer : p.source.toList = o.source.toList ++ r)
    (h : o.chars = p.chars) : o = p ∨ p.Swallows o := by
  unfold chars at h
  rw [longer, List.append_assoc, List.append_cancel_left_eq] at h
  rcases eq_nil_or_swallows (bar_notMem _) (bar_notMem _) h with ⟨rfl, line, content⟩ | taken
  · left
    rw [List.append_nil] at longer
    apply Origin.ext
    · exact (String.toList_inj.mp longer).symm
    · exact toString_injective line
    · exact String.toList_inj.mp content
  · right
    obtain ⟨taken, source, content⟩ := taken
    refine swallows_iff.mpr ⟨taken, ?_, content⟩
    rw [longer, List.append_assoc, source]

/-- The bytes of two origins are equal only if the origins are or one swallows the other. -/
theorem bytes_eq_iff : o.bytes = p.bytes ↔ o = p ∨ p.Swallows o ∨ o.Swallows p := by
  rw [bytes_eq_iff_chars]
  constructor
  · intro h
    rcases List.append_eq_append_iff.mp h with ⟨r, longer, -⟩ | ⟨r, longer, -⟩
    · rcases eq_or_swallows longer h with same | swallows
      · exact .inl same
      · exact .inr (.inl swallows)
    · rcases eq_or_swallows longer h.symm with same | swallows
      · exact .inl same.symm
      · exact .inr (.inr swallows)
  · rintro (rfl | swallows | swallows)
    · rfl
    · exact chars_eq_of_swallows swallows
    · exact (chars_eq_of_swallows swallows).symm

/-- A source goes on after another one with a bar, a number and a bar, which may be the one after
the source. -/
def GoesOn (source other : String) : Prop :=
  ∃ (line : Nat) (taken : String),
    other ++ "|" = source ++ "|" ++ toString line ++ "|" ++ taken

theorem Swallows.goesOn (h : p.Swallows o) : GoesOn o.source p.source := by
  obtain ⟨taken, source, -⟩ := h
  exact ⟨o.startLine, taken, source⟩

/-- A source that goes on after another one swallows it with a text that suits. -/
theorem GoesOn.exists_swallows {source other : String} (h : GoesOn source other) :
    ∃ o p : Origin, o.source = source ∧ p.source = other ∧ p.Swallows o := by
  obtain ⟨line, taken, goes⟩ := h
  exact ⟨⟨source, line, taken ++ toString 0 ++ "|" ++ ""⟩, ⟨other, 0, ""⟩, rfl, rfl,
    taken, goes, rfl⟩

theorem GoesOn.ne {source other : String} (h : GoesOn source other) : source ≠ other := by
  obtain ⟨line, taken, goes⟩ := h
  rintro rfl
  have lengths := congrArg String.length goes
  simp only [String.length_append] at lengths
  have bar : "|".length = 1 := by decide
  omega

/-- A source that goes on after another one has a bar. -/
theorem GoesOn.bar {source other : String} (h : GoesOn source other) : '|' ∈ other.toList := by
  obtain ⟨line, taken, goes⟩ := h
  have counts := congrArg (fun s => s.toList.count '|') goes
  simp only [String.toList_append, List.count_append] at counts
  have bar : "|".toList.count '|' = 1 := by decide
  apply List.count_pos_iff.mp
  omega

/-- Different bytes with one digest. -/
def Collide (a b : Bytes) : Prop := a ≠ b ∧ sha256 a = sha256 b

/-- The bytes of two origins are equal exactly if the origins are or one source swallows the other
origin. So the chunks of some sources are told apart by what is digested, whatever their lines and
texts, exactly if no source goes on after another one; this holds if no source has a bar. Two chunks
then share an id only if they agree in source, line and text or their bytes collide. -/
theorem unambiguous_iff (sources : String → Prop) :
    (∀ o p : Origin, o.bytes = p.bytes ↔ o = p ∨ p.Swallows o ∨ o.Swallows p) ∧
    ((∀ o p : Origin, sources o.source → sources p.source → o.bytes = p.bytes → o = p) ↔
      ∀ source other, sources source → sources other → ¬GoesOn source other) ∧
    ((∀ source, sources source → '|' ∉ source.toList) →
      ∀ source other, sources source → sources other → ¬GoesOn source other) ∧
    ∀ c d : Chunk, c.id = d.id → ofChunk c = ofChunk d ∨ (ofChunk d).Swallows (ofChunk c) ∨
      (ofChunk c).Swallows (ofChunk d) ∨ Collide (ofChunk c).bytes (ofChunk d).bytes := by
  refine ⟨fun o p => bytes_eq_iff, ⟨?_, ?_⟩, ?_, ?_⟩
  · rintro apart source other listed listed' goes
    obtain ⟨o, p, rfl, rfl, swallows⟩ := goes.exists_swallows
    have same := apart o p listed listed' (bytes_eq_iff.mpr (.inr (.inl swallows)))
    exact goes.ne (congrArg Origin.source same)
  · rintro never o p listed listed' h
    rcases bytes_eq_iff.mp h with same | swallows | swallows
    · exact same
    · exact absurd swallows.goesOn (never _ _ listed listed')
    · exact absurd swallows.goesOn (never _ _ listed' listed)
  · rintro clear source other - listed goes
    exact clear other listed goes.bar
  · intro c d h
    by_cases same : (ofChunk c).bytes = (ofChunk d).bytes
    · rcases bytes_eq_iff.mp same with same | swallows | swallows
      · exact .inl same
      · exact .inr (.inl swallows)
      · exact .inr (.inr (.inl swallows))
    · exact .inr (.inr (.inr ⟨same, h⟩))

/-- A comment in one file and a comment in another, whose name holds the name, the line and half of
the comment of the first. -/
def swallowed : Origin × Origin :=
  (⟨"a.c", 1, "/* b.c|1|/* y */"⟩, ⟨"a.c|1|/* b.c", 1, "/* y */"⟩)

/-- The two comments differ in source and text and have one id. -/
theorem not_unambiguous_bars :
    swallowed.1 ≠ swallowed.2 ∧ swallowed.2.Swallows swallowed.1 ∧
      swallowed.1.bytes = swallowed.2.bytes ∧
      chunkId swallowed.1.source swallowed.1.startLine swallowed.1.content =
        chunkId swallowed.2.source swallowed.2.startLine swallowed.2.content ∧
      ¬∀ o p : Origin, o.source ∈ ["a.c", "a.c|1|/* b.c"] → p.source ∈ ["a.c", "a.c|1|/* b.c"] →
        o.bytes = p.bytes → o = p := by
  obtain ⟨exact_, apart, -⟩ := unambiguous_iff (· ∈ ["a.c", "a.c|1|/* b.c"])
  have swallows : swallowed.2.Swallows swallowed.1 := ⟨"/* b.c|", by decide +kernel, by decide +kernel⟩
  have same := (exact_ swallowed.1 swallowed.2).mpr (.inr (.inl swallows))
  refine ⟨by decide, swallows, same, congrArg sha256 same, fun told => ?_⟩
  exact apart.mp told _ _ (by decide) (by decide) swallows.goesOn

end Origin

end CodeSearch
