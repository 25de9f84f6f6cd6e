import Mathlib.Algebra.GroupWithZero.Nat
import Mathlib.Algebra.Order.BigOperators.Group.List
import Mathlib.Algebra.Order.Group.Nat
import CodeSearch.Extraction.Result
import CodeSearch.Proofs.Extraction.Members

/-! # Counting chunks

Each chunk is counted under its kind. Lines are counted in words of 64 bits, and a program that
needs more stops. One chunk alone has too many lines: that from line zero to the greatest line that
a word can name. The chunks of an extraction fall into functions and others. Those of one sort share
no byte, so they have no more lines than their source has bytes and line feeds, and all lines can be
added up.
-/

namespace CodeSearch

namespace Chunk

/-- The number of lines is told as it is, and it is at least one. -/
structure Counted (c : Chunk) : Prop where
  told : c.lineCount? = some c.lines
  positive : ∀ n ∈ c.lineCount?, 1 ≤ n

variable {c : Chunk}

/-- From line zero to the greatest line that a word can name. -/
def Endless (c : Chunk) : Prop := c.startLine = 0 ∧ c.endLine + 1 = wordSize

instance : Decidable c.Endless := inferInstanceAs (Decidable (_ ∧ _))

theorem one_le_lines (c : Chunk) : 1 ≤ c.lines := Nat.le_add_left ..

theorem counted_of_lt (few : c.lines < wordSize) : c.Counted := by
  refine ⟨fit?_of_lt few, fun n told => ?_⟩
  obtain ⟨-, rfl⟩ := fit?_eq_some_iff.mp told
  exact one_le_lines c

/-- Of all chunks with lines that words can name, one alone has more lines than a word can hold. -/
theorem lineCount?_eq_none_iff (named : c.endLine < wordSize) :
    c.lineCount? = none ↔ c.Endless := by
  have words : 1 < wordSize := by decide
  rw [lineCount?, fit?_eq_none_iff]
  simp only [lines, Endless]
  omega

theorem counted_iff (named : c.endLine < wordSize) : c.Counted ↔ ¬c.Endless := by
  rw [← lineCount?_eq_none_iff named]
  constructor
  · intro counted none_
    exact absurd (counted.told.symm.trans none_) nofun
  · intro some_
    apply counted_of_lt
    exact Nat.lt_of_not_le fun many => some_ (fit?_eq_none_iff.mpr many)

end Chunk

namespace Tally

theorem ofKind_cons (k : Kind) (c : Chunk) (chunks : List Chunk) :
    ofKind k (c :: chunks) = ofKind k chunks + if c.kind = k then 1 else 0 := by
  rw [ofKind, List.filter_cons]
  by_cases same : c.kind = k <;> simp [same, ofKind]

/-- Each chunk is counted under one kind. -/
theorem length_eq (chunks : List Chunk) : chunks.length =
    ofKind .function chunks + ofKind .testCase chunks +
      (ofKind .classType chunks + ofKind .structType chunks) +
      ofKind .arrayInit chunks + ofKind .comment chunks := by
  induction chunks with
  | nil => rfl
  | cons c chunks ih =>
    simp only [List.length_cons, ofKind_cons, ih]
    cases c.kind <;> simp <;> omega

/-- Lines are added up as long as the whole sum is a word. -/
theorem addLines?_eq {n : Nat} (word : n < wordSize) (chunks : List Chunk) :
    addLines? n chunks = fit? (n + (chunks.map Chunk.lines).sum) := by
  induction chunks generalizing n with
  | nil => exact (fit?_of_lt word).symm
  | cons c chunks ih =>
    have first : addLines? n (c :: chunks) =
        (c.lineCount?.bind fun lines => fit? (n + lines)).bind fun sum => addLines? sum chunks := by
      rw [addLines?, List.foldlM_cons]
      rfl
    rw [first, List.map_cons, List.sum_cons]
    by_cases few : n + c.lines < wordSize
    · have counted : c.lineCount? = some c.lines := fit?_of_lt (by omega)
      rw [counted, Option.bind_some, fit?_of_lt few, Option.bind_some, ih few, Nat.add_assoc]
    · have none_ : (c.lineCount?.bind fun lines => fit? (n + lines)) = none := by
        refine Option.bind_eq_none_iff.mpr fun lines told => ?_
        obtain ⟨-, rfl⟩ := fit?_eq_some_iff.mp told
        exact fit?_eq_none_iff.mpr (Nat.le_of_not_lt few)
      rw [none_, Option.bind_none]
      exact (fit?_eq_none_iff.mpr (by omega)).symm

theorem ofChunks?_eq_some_iff {chunks : List Chunk} {t : Tally} : ofChunks? chunks = some t ↔
    (chunks.map Chunk.lines).sum < wordSize ∧
      t = ⟨chunks.length, (chunks.map Chunk.lines).sum, ofKind .function chunks,
        ofKind .testCase chunks, ofKind .classType chunks + ofKind .structType chunks,
        ofKind .arrayInit chunks, ofKind .comment chunks⟩ := by
  have sum : addLines? 0 chunks = fit? (chunks.map Chunk.lines).sum := by
    rw [addLines?_eq (by decide), Nat.zero_add]
  rw [ofChunks?, sum, fit?]
  split
  next few => simp [few, eq_comm]
  next many => simp [many]

/-- There is a tally if the sum of all lines is a word. -/
theorem isSome_ofChunks?_iff (chunks : List Chunk) :
    (ofChunks? chunks).isSome ↔ (chunks.map Chunk.lines).sum < wordSize := by
  rw [Option.isSome_iff_exists]
  constructor
  · rintro ⟨t, tallied⟩
    exact (ofChunks?_eq_some_iff.mp tallied).1
  · intro few
    exact ⟨_, ofChunks?_eq_some_iff.mpr ⟨few, rfl⟩⟩

theorem length_le_lines (chunks : List Chunk) :
    chunks.length ≤ (chunks.map Chunk.lines).sum := by
  induction chunks with
  | nil => exact Nat.le_refl 0
  | cons c chunks ih =>
    rw [List.length_cons, List.map_cons, List.sum_cons, Nat.add_comm]
    exact Nat.add_le_add (Nat.le_add_left ..) ih

end Tally

namespace Found

variable {source : Bytes} {file : String} {e f : Found} {found : List Found} {nest : Bool}
variable {low high : Nat}

theorem lines_toChunk (source : Bytes) (file : String) (f : Found) :
    (f.toChunk source file).lines =
      lineFeeds source f.span.stop - lineFeeds source f.span.start + 1 := by
  change lineFeeds source f.span.stop + 1 - (lineFeeds source f.span.start + 1) + 1 = _
  rw [Nat.add_sub_add_right]

theorem lineFeeds_le (source : Bytes) (i : Nat) : lineFeeds source i ≤ i :=
  Nat.le_trans List.count_le_length (List.length_take_le ..)

/-- The later one has no byte of the earlier one and starts after it. -/
def Follows (e f : Found) : Prop := e.span.stop ≤ f.span.start ∧ e.span.start < f.span.start

/-- Two functions that are kept follow each other, and so do two constructs that are none. -/
theorem follows_of_goesWith (before : e.span.Before f.span) (goes : f.goesWith nest e = true)
    (sort : f.kind.isFunction = e.kind.isFunction) (ordered : e.span.start ≤ e.span.stop)
    (ordered' : f.span.start ≤ f.span.stop) : Follows e f := by
  have around := not_contains_of_goesWith goes
  have apart : e.span.stop ≤ f.span.start := by
    refine before.resolve_left fun inside => ?_
    simp only [goesWith, isMemberOf, inside, Bool.not_true, Bool.false_and, Bool.false_or,
      Bool.and_eq_true] at goes
    -- what holds a member is no function, and the member is one
    have container := Kind.isFunction_of_isContainer goes.2.1.2
    rw [sort, container] at goes
    exact Bool.noConfusion goes.2.1.1
  refine ⟨apart, ?_⟩
  rw [← Bool.not_eq_true, Span.contains_iff] at around
  omega

/-- Constructs that follow each other have no more lines than there are bytes and line feeds where
they are. The induction is on the list; the bytes before the first that is left carry it. -/
theorem sum_lines_le (source : Bytes) (file : String) (follow : found.Pairwise Follows)
    (room : low ≤ high + 1)
    (within : ∀ f ∈ found, low ≤ f.span.start ∧ f.span.start ≤ f.span.stop ∧ f.span.stop ≤ high) :
    (found.map fun f => (f.toChunk source file).lines).sum + (lineFeeds source low + low) ≤
      lineFeeds source (high + 1) + (high + 1) := by
  induction found generalizing low with
  | nil =>
    have feeds : lineFeeds source low ≤ lineFeeds source (high + 1) := lineFeeds_mono room
    simp only [List.map_nil, List.sum_nil]
    omega
  | cons f found ih =>
    obtain ⟨first, rest⟩ := List.pairwise_cons.mp follow
    obtain ⟨⟨starts, ordered, stops⟩, others⟩ := List.forall_mem_cons.mp within
    -- the others have no byte of the first, and they start after it
    obtain ⟨next, behind, later⟩ : ∃ next, f.span.stop ≤ next ∧ f.span.start < next ∧
        next ≤ high + 1 ∧ ∀ g ∈ found, next ≤ g.span.start :=
      ⟨max f.span.stop (f.span.start + 1), by omega, by omega, by omega, fun g listed =>
        Nat.max_le.mpr (first g listed)⟩
    have left := ih rest later.2.1 fun g listed => ⟨later.2.2 g listed, (others g listed).2⟩
    have before : lineFeeds source low ≤ lineFeeds source f.span.start := lineFeeds_mono starts
    have inside : lineFeeds source f.span.start ≤ lineFeeds source f.span.stop :=
      lineFeeds_mono ordered
    have after : lineFeeds source f.span.stop ≤ lineFeeds source next := lineFeeds_mono behind
    rw [List.map_cons, List.sum_cons, lines_toChunk]
    omega

end Found

namespace Pass

variable {s : Setting} {t : Tree}

theorem orderly_of_mem_found (wf : t.WellFormed) {f : Found} (listed : f ∈ found s t) :
    0 ≤ f.span.start ∧ f.span.start ≤ f.span.stop ∧ f.span.stop ≤ t.span.stop := by
  have visited := mem_preorder_of_mem_found listed
  have inside := Span.contains_iff.mp (Tree.contains_of_mem_preorder wf f.node visited)
  exact ⟨Nat.zero_le _, (wf f.node visited).start_le_stop, inside.2⟩

/-- Of what is kept the functions follow each other, and so do the others. -/
theorem pairwise_follows (wf : t.WellFormed) (sort : Bool) :
    ((found s t).filter fun f => f.kind.isFunction == sort).Pairwise Found.Follows := by
  have kept := (pairwise_span_before wf).and (pairwise_goesWith s t)
  refine (kept.filter _).imp_of_mem fun {e f} first second both => ?_
  obtain ⟨among, sorted⟩ := List.mem_filter.mp first
  obtain ⟨among', sorted'⟩ := List.mem_filter.mp second
  obtain ⟨-, ordered, -⟩ := orderly_of_mem_found wf among
  obtain ⟨-, ordered', -⟩ := orderly_of_mem_found wf among'
  refine Found.follows_of_goesWith both.1 both.2 ?_ ordered ordered'
  rw [eq_of_beq sorted, eq_of_beq sorted']

theorem sum_lines_found_le (wf : t.WellFormed) (source : Bytes) (file : String) :
    ((found s t).map fun f => (f.toChunk source file).lines).sum ≤ 4 * (t.span.stop + 1) := by
  have sort (b : Bool) :
      (((found s t).filter fun f => f.kind.isFunction == b).map
        fun f => (f.toChunk source file).lines).sum ≤ 2 * (t.span.stop + 1) := by
    have bound := Found.sum_lines_le source file (pairwise_follows (s := s) wf b)
      (Nat.zero_le (t.span.stop + 1))
      fun f listed => orderly_of_mem_found wf (List.mem_filter.mp listed).1
    have feeds := Found.lineFeeds_le source (t.span.stop + 1)
    omega
  have split := List.filter_append_perm (fun f : Found => f.kind.isFunction == true) (found s t)
  have other : (fun f : Found => !(f.kind.isFunction == true)) =
      fun f => f.kind.isFunction == false := by
    funext f
    cases f.kind.isFunction <;> rfl
  have total := (split.map fun f => (f.toChunk source file).lines).sum_nat
  rw [other, List.map_append, List.sum_append] at total
  have functions := sort true
  have others := sort false
  omega

end Pass

/-- What the parser yields for the source is well-formed and its last byte is one of the first
2 ^ 61. Parsers count bytes in words of 32 bits. -/
def Parser.Bounded (parse : Parser) (source : Bytes) : Prop :=
  ∀ l t, parse l source = some t → t.WellFormed ∧ t.span.stop < 2 ^ 61

namespace Tally

/-- The counts of a tally are those of the chunks, the numbers under the sorts make up the number of
chunks, and the lines are those of all chunks. -/
structure Covers (t : Tally) (chunks : List Chunk) : Prop where
  length : t.chunks = chunks.length
  sorts : t.chunks = t.functions + t.tests + t.types + t.arrays + t.comments
  lines : t.lines = (chunks.map Chunk.lines).sum

/-- Every chunk of the list is counted as it is, and words are enough for the sum. -/
structure AddsUp (chunks : List Chunk) : Prop where
  counted : ∀ c ∈ chunks, c.Counted
  tally : ∃ t, ofChunks? chunks = some t ∧ t.Covers chunks ∧ t.chunks ≤ t.lines

variable {chunks : List Chunk} {t : Tally} {parse : Parser} {source : Bytes}

theorem covers_of_eq_some (tallied : ofChunks? chunks = some t) : t.Covers chunks := by
  obtain ⟨-, rfl⟩ := ofChunks?_eq_some_iff.mp tallied
  exact ⟨rfl, length_eq chunks, rfl⟩

theorem addsUp_of_lt (few : (chunks.map Chunk.lines).sum < wordSize) : AddsUp chunks := by
  have counted : ∀ c ∈ chunks, c.Counted := fun c listed =>
    Chunk.counted_of_lt
      (Nat.lt_of_le_of_lt (List.le_sum_of_mem (List.mem_map_of_mem listed)) few)
  obtain ⟨t, tallied⟩ := Option.isSome_iff_exists.mp ((isSome_ofChunks?_iff chunks).mpr few)
  have covers := covers_of_eq_some tallied
  refine ⟨counted, t, tallied, covers, ?_⟩
  rw [covers.length, covers.lines]
  exact length_le_lines chunks

theorem addsUp_nil : AddsUp [] := addsUp_of_lt (by decide)

theorem addsUp_ofLanguage (bounded : parse.Bounded source) (o : Options) (name : String)
    (l : Language) : AddsUp (Extraction.ofLanguage parse o source name l).chunks := by
  unfold Extraction.ofLanguage
  split
  · exact addsUp_nil
  · split
    · exact addsUp_nil
    · split
      next => exact addsUp_nil
      next t parsed =>
        obtain ⟨wf, short⟩ := bounded l t parsed
        refine addsUp_of_lt ?_
        have bound := Pass.sum_lines_found_le (s := ⟨o, l, source⟩) wf source name
        rw [Pass.chunks_eq wf, List.map_map]
        simp only [wordSize]
        exact Nat.lt_of_le_of_lt bound (by omega)

theorem addsUp_ofSource (bounded : parse.Bounded source) (o : Options) (name ext : String) :
    AddsUp (Extraction.ofSource parse o source name ext).chunks := by
  unfold Extraction.ofSource
  split
  · exact addsUp_nil
  · exact addsUp_ofLanguage bounded o name _

/-- Every chunk that ends on a line that a word can name is counted as it is, except one that has
all of these lines: there the program stops. Each list has a tally if the sum of its lines is a
word, and then it falls into the sorts. The lines of one extraction add up. -/
theorem counts_iff (parse : Parser) (source : Bytes) (bounded : parse.Bounded source) :
    (∀ c : Chunk, c.endLine < wordSize →
      (c.Counted ↔ ¬c.Endless) ∧ (c.lineCount? = none ↔ c.Endless)) ∧
    (∀ chunks, (ofChunks? chunks).isSome ↔ (chunks.map Chunk.lines).sum < wordSize) ∧
    (∀ chunks t, ofChunks? chunks = some t → t.Covers chunks) ∧
    (∀ o name l, AddsUp (Extraction.ofLanguage parse o source name l).chunks) ∧
    ∀ o name ext, AddsUp (Extraction.ofSource parse o source name ext).chunks := by
  refine ⟨fun c named => ⟨Chunk.counted_iff named, Chunk.lineCount?_eq_none_iff named⟩,
    isSome_ofChunks?_iff, fun _ _ => covers_of_eq_some, ?_, ?_⟩
  · exact addsUp_ofLanguage bounded
  · exact addsUp_ofSource bounded

/-- The chunk with all lines that words can name. -/
def endless : Chunk :=
  ⟨⟨"a.c", 0, wordSize - 1, .function, ⟨some "f", none, none, none⟩⟩, "int f(){}", none⟩

/-- The tree of a comment and a function behind it. -/
def remarked : Tree :=
  .plain "translation_unit" 0 14 none
    [.plain "comment" 0 5 none [],
      .plain "function_definition" 5 14 none
        [.plain "function_declarator" 9 12 (some "declarator")
          [.plain "identifier" 9 10 (some "declarator") []]]]

/-- The program stops at the endless chunk. Two chunks that share a line have it twice. -/
theorem not_counted_endless :
    let parse : Parser := fun _ _ => some remarked
    let source := Utf8.encode "/* */int f(){}"
    let e := Extraction.ofLanguage parse .standard source "a.c" .c
    parse.Bounded source ∧ endless.endLine < wordSize ∧ ¬endless.Counted ∧
      endless.lineCount? = none ∧ ofChunks? [endless] = none ∧ AddsUp e.chunks ∧
      e.chunks.map (·.kind) = [.comment, .function] ∧
      (ofChunks? e.chunks).map (·.lines) = some 2 := by
  intro parse source e
  have bounded : parse.Bounded source := by
    rintro l t ⟨⟩
    decide
  have named : endless.endLine < wordSize := by decide
  obtain ⟨chunk, -, -, extraction, -⟩ := counts_iff parse source bounded
  obtain ⟨counted, stops⟩ := chunk endless named
  have sums : AddsUp e.chunks := extraction .standard "a.c" .c
  have chunks : e.chunks = (Pass.found ⟨.standard, .c, source⟩ remarked).map
      (Found.toChunk source "a.c") := by
    have wf := (bounded .c remarked rfl).1
    change (Extraction.ofLanguage parse .standard source "a.c" .c).chunks = _
    rw [Extraction.ofLanguage, if_neg (by decide), if_neg (by decide +kernel)]
    exact Pass.chunks_eq wf "a.c"
  refine ⟨bounded, named, fun told => counted.mp told (by decide), stops.mpr (by decide),
    by decide, sums, ?_, ?_⟩
  · rw [chunks]
    decide +kernel
  · rw [chunks]
    decide +kernel

end Tally

end CodeSearch
