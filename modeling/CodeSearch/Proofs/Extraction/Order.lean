import CodeSearch.Proofs.Extraction.Members
import CodeSearch.Proofs.Text.Utf8

/-! # Chunks in document order

What a pass keeps stands at nodes of its own, in the order of the visits. The spans of a parser's
tree never start before those of earlier nodes, so lines do not go back either and sorting the chunks
by their lines moves none of them.
-/

namespace CodeSearch

namespace Found

variable {source : Bytes} {file : String} {f : Found}

/-- The chunk shows the bytes of its construct and starts on the line of the first of them. -/
structure PointsAt (source : Bytes) (file : String) (f : Found) : Prop where
  content : (f.toChunk source file).content = Utf8.decodeLossy (f.span.slice source)
  /-- Bytes that spell a text are shown as that text. -/
  verbatim : ∀ text, f.span.slice source = Utf8.encode text →
    (f.toChunk source file).content = text
  startLine : (f.toChunk source file).startLine = 1 + (source.take f.span.start).count 10

theorem pointsAt (source : Bytes) (file : String) (f : Found) : f.PointsAt source file where
  content := rfl
  verbatim := by
    intro text spelled
    change Utf8.decodeLossy (f.span.slice source) = text
    rw [spelled]
    exact Utf8.decodeLossy_of_decode? (Utf8.decode?_encode text)
  startLine := Nat.add_comm _ 1

end Found

namespace Pass

variable {s : Setting} {t : Tree}

/-- What a pass over a tree promises of the order of its chunks. -/
structure InOrder (s : Setting) (t : Tree) : Prop where
  visits : t.walk = t.preorder
  /-- What is kept stands at visited nodes, in the order of the visits. -/
  nodes : ((found s t).map (·.node)).Sublist t.walk
  /-- No two chunks come from one node. -/
  distinct : ((found s t).map (·.node)).Nodup
  starts : (found s t).Pairwise fun e f => e.span.start ≤ f.span.start
  /-- The chunks are those of what is kept, in that order: sorting by lines moves none. -/
  unmoved : ∀ file, s.chunks file t = (found s t).map (Found.toChunk s.source file)
  lines : ∀ file, (s.chunks file t).Pairwise fun c d => c.startLine ≤ d.startLine
  points : ∀ file, ∀ f ∈ found s t, f.PointsAt s.source file

theorem nodup_nodes (s : Setting) (t : Tree) : ((found s t).map (·.node)).Nodup := by
  refine List.pairwise_map.mpr ((distinct_spans s t).imp ?_)
  rintro e f apart same
  exact apart (congrArg Tree.span same)

/-- The chunks of a parser's tree point at their texts and come in document order. -/
theorem inOrder_of_wellFormed (s : Setting) (t : Tree) (wf : t.WellFormed) : InOrder s t where
  visits := Tree.walk_eq_preorder t
  nodes := nodes_sublist s t
  distinct := nodup_nodes s t
  starts := pairwise_start wf
  unmoved := chunks_eq wf
  lines := by
    intro file
    rw [chunks_eq wf]
    exact pairwise_startLine wf s.source file
  points := fun file f _ => f.pointsAt s.source file

/-- The tree of two comments on one line, the first of which has a byte that is no text, and a struct
with a comment in it on the next. -/
def remarks : Tree :=
  .plain "translation_unit" 0 38 none
    [.plain "comment" 0 5 none [],
      .plain "comment" 6 11 none [],
      .plain "struct_specifier" 12 36 none
        [.plain "type_identifier" 19 20 (some "name") [],
          .plain "field_declaration_list" 21 36 (some "body")
            [.plain "comment" 22 27 none [],
              .plain "field_declaration" 28 34 none []]]]

/-- The source of the remarks. -/
def remarkBytes : Bytes :=
  Utf8.encode "/*" ++ 0xFF :: Utf8.encode "*/ /*b*/\nstruct S {/*c*/ int x; };\n"

theorem inOrder_remarks :
    let s : Setting := ⟨.standard, .c, remarkBytes⟩
    remarks.WellFormed ∧ InOrder s remarks ∧
      (s.chunks "r.c" remarks).map (fun c => (c.content, c.startLine)) =
        [("/*\uFFFD*/", 1), ("/*b*/", 1), ("struct S {/*c*/ int x; }", 2)] := by
  intro s
  have order : InOrder s remarks := inOrder_of_wellFormed s remarks (by decide)
  refine ⟨by decide, order, ?_⟩
  rw [order.unmoved]
  decide +kernel

end Pass

end CodeSearch
