import CodeSearch.Extraction.Result
import CodeSearch.Indexing.ChunkId
import CodeSearch.Proofs.Extraction.Lines
import CodeSearch.Proofs.Extraction.Pass
import CodeSearch.Proofs.Text.Utf8

/-! # What the id of a chunk tells

The bytes under the digest give back the line and the text. The line where a chunk ends
follows from them, so two chunks of one extraction that agree in their keys agree in
everything.
-/

namespace CodeSearch

/-- Two lists part at the same place where both have the first of some item. -/
theorem parts_eq_of_notMem {α : Type} {x : α} {as bs cs ds : List α} (ha : x ∉ as) (hb : x ∉ bs)
    (h : as ++ x :: cs = bs ++ x :: ds) : as = bs ∧ cs = ds := by
  induction as generalizing bs with
  | nil =>
    cases bs with
    | nil => exact ⟨rfl, (List.cons.inj h).2⟩
    | cons b bs => exact absurd ((List.cons.inj h).1 ▸ List.mem_cons_self) hb
  | cons a as ih =>
    cases bs with
    | nil => exact absurd ((List.cons.inj h).1 ▸ List.mem_cons_self) ha
    | cons b bs =>
      obtain ⟨rfl, rest⟩ := List.cons.inj h
      obtain ⟨rfl, rfl⟩ :=
        ih (List.not_mem_of_not_mem_cons ha) (List.not_mem_of_not_mem_cons hb) rest
      exact ⟨rfl, rfl⟩

theorem toList_toString (n : Nat) : (toString n).toList = Nat.toDigits 10 n := by
  change (Nat.repr n).toList = _
  rw [Nat.repr_eq_ofList_toDigits, String.toList_ofList]

/-- A number is read off its digits. -/
theorem toString_injective {m n : Nat} (h : (toString m).toList = (toString n).toList) : m = n := by
  rw [toList_toString, toList_toString] at h
  calc m = Nat.ofDigitChars 10 (Nat.toDigits 10 m) 0 := Nat.ofDigitChars_ten_toDigits.symm
    _ = Nat.ofDigitChars 10 (Nat.toDigits 10 n) 0 := by rw [h]
    _ = n := Nat.ofDigitChars_ten_toDigits

theorem bar_notMem (n : Nat) : '|' ∉ (toString n).toList := by
  rw [toList_toString]
  intro listed
  exact absurd (Nat.isDigit_of_mem_toDigits (by decide) (by decide) listed) (by decide)

/-- The line and the text can be read off the bytes of an id. -/
theorem idBytes_inj {source content content' : String} {m n : Nat}
    (h : idBytes source m content = idBytes source n content') : m = n ∧ content = content' := by
  have same := congrArg String.toList (Utf8.encode_injective h)
  simp only [String.toList_append, List.append_assoc, List.append_cancel_left_eq] at same
  change (toString m).toList ++ '|' :: content.toList =
    (toString n).toList ++ '|' :: content'.toList at same
  obtain ⟨digits, rest⟩ := parts_eq_of_notMem (bar_notMem m) (bar_notMem n) same
  exact ⟨toString_injective digits, String.toList_inj.mp rest⟩

namespace Found

/-- A chunk ends as many lines further down as its text has line feeds. -/
theorem endLine_toChunk {source : Bytes} {name : String} {f : Found}
    (h : f.span.start ≤ f.span.stop) :
    (f.toChunk source name).endLine =
      (f.toChunk source name).startLine + (f.toChunk source name).content.toList.count '\n' := by
  have feeds := lineFeeds_stop source h
  simp only [toChunk, Utf8.count_decodeLossy]
  change lineFeeds source f.span.stop + 1 =
    lineFeeds source f.span.start + 1 + (f.span.slice source).count 10
  omega

end Found

namespace Extraction

variable {parse : Parser} {o : Options} {source : Bytes} {name ext : String}

/-- Every chunk comes from a candidate of the pass over some tree. -/
theorem exists_found {c : Chunk} (hc : c ∈ (ofSource parse o source name ext).chunks) :
    ∃ l t, parse l source = some t ∧ ∃ f ∈ Pass.found ⟨o, l, source⟩ t,
      f.toChunk source name = c := by
  unfold ofSource at hc
  split at hc
  · simp [skipped] at hc
  · rename_i l _
    unfold ofLanguage at hc
    split at hc
    · simp [skipped] at hc
    · split at hc
      · simp [skipped] at hc
      · split at hc
        · simp [skipped] at hc
        · rename_i t parsed
          exact ⟨l, t, parsed, Setting.mem_chunks.mp hc⟩

theorem source_eq {c : Chunk} (hc : c ∈ (ofSource parse o source name ext).chunks) :
    c.source = name := by
  obtain ⟨_, _, _, _, _, rfl⟩ := exists_found hc
  rfl

/-- The trees of a parser are well formed. -/
def Nests (parse : Parser) : Prop := ∀ l source t, parse l source = some t → t.WellFormed

theorem endLine_eq (nests : Nests parse) {c : Chunk}
    (hc : c ∈ (ofSource parse o source name ext).chunks) :
    c.endLine = c.startLine + c.content.toList.count '\n' := by
  obtain ⟨l, t, parsed, f, hf, rfl⟩ := exists_found hc
  refine Found.endLine_toChunk ?_
  have wf := nests l source t parsed
  have visited := (Pass.nodes_sublist ⟨o, l, source⟩ t).subset (List.mem_map_of_mem hf)
  rw [Tree.walk_eq_preorder] at visited
  exact (wf f.node visited).start_le_stop

/-- What tells results apart tells the chunks of an extraction apart. -/
theorem metadata_eq_of_key_eq (nests : Nests parse) {c d : Chunk}
    (hc : c ∈ (ofSource parse o source name ext).chunks)
    (hd : d ∈ (ofSource parse o source name ext).chunks) (same : c.key = d.key) :
    c.content = d.content ∧ c.toMetadata = d.toMetadata := by
  obtain ⟨content, source, startLine, kind, names⟩ := Chunk.key_eq_iff.mp same
  have endLine : c.endLine = d.endLine := by
    rw [endLine_eq nests hc, endLine_eq nests hd, startLine, content]
  refine ⟨content, ?_⟩
  obtain ⟨⟨_, _, _, _, _⟩, _, _⟩ := c
  obtain ⟨⟨_, _, _, _, _⟩, _, _⟩ := d
  simp_all

end Extraction

end CodeSearch
