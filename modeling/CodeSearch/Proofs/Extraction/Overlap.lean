import Mathlib.Data.List.Pairwise
import CodeSearch.Proofs.Extraction.Pass
import CodeSearch.Proofs.Tree.Nesting

/-! # Extraction without overlaps

Pre-order decides which of two kept constructs may lie in the other: the later one in the
earlier one. The rule by which a pass keeps candidates leaves this to members of a class or
a struct, so a construct lies in no more than one other, and whatever is not kept has met
something kept before.
-/

namespace CodeSearch

theorem Kind.isFunction_of_isContainer {k : Kind} (h : k.isContainer = true) :
    k.isFunction = false := by
  cases k <;> simp_all [isContainer, isFunction]

namespace Found

/-- The one way in which constructs may overlap: a function strictly inside a class or a
struct, where members nest. -/
structure NestsIn (nest : Bool) (f outer : Found) : Prop where
  nests : nest = true
  isFunction : f.kind.isFunction = true
  isContainer : outer.kind.isContainer = true
  surrounds : outer.span.Surrounds f.span

variable {nest : Bool} {f e : Found}

theorem not_contains_of_goesWith (h : f.goesWith nest e = true) :
    f.span.contains e.span = false := by
  simp only [goesWith, isMemberOf, Bool.or_eq_true, Bool.and_eq_true, Bool.not_eq_true'] at h
  tauto

theorem contains_or_of_not_goesWith (h : f.goesWith nest e = false) :
    e.span.contains f.span = true ∨ f.span.contains e.span = true := by
  simp only [goesWith, Bool.or_eq_false_iff, Bool.and_eq_false_iff, Bool.not_eq_false'] at h
  exact h.1

theorem not_contains_of_goesWith_strict (h : f.goesWith false e = true) :
    e.span.contains f.span = false := by
  simp only [goesWith, Bool.or_eq_true, Bool.and_eq_true, Bool.not_eq_true', Bool.false_eq_true,
    false_and, or_false] at h
  exact h.1

/-- Constructs that go together and come in this order share no byte, or the later one is a
member of the earlier one. -/
theorem disjoint_or_nestsIn (hb : e.span.Before f.span) (h : f.goesWith nest e = true) :
    e.span.Disjoint f.span ∨ f.NestsIn nest e := by
  rcases hb with hin | hapart
  · have hout := not_contains_of_goesWith h
    simp only [goesWith, isMemberOf, hin, Bool.not_true, Bool.false_and, Bool.false_or,
      Bool.and_eq_true] at h
    exact .inr ⟨h.1, h.2.1.1, h.2.1.2, hin, hout⟩
  · exact .inl (.inl hapart)

end Found

namespace Pass

/-- What a pass over a tree promises of the spans that it keeps. -/
structure OverlapFree (s : Setting) (t : Tree) : Prop where
  /-- An earlier and a later construct share no byte, or the later is a member of the other. -/
  apart : (found s t).Pairwise fun e f =>
    e.span.Disjoint f.span ∨ f.NestsIn s.options.nestMembers e
  distinct : (found s t).Pairwise fun e f => e.span ≠ f.span
  strict : s.options.nestMembers = false → (found s t).Pairwise fun e f =>
    e.span.contains f.span = false ∧ f.span.contains e.span = false
  /-- No construct with bytes of its own lies in two others. -/
  enclosing : ∀ f ∈ found s t, f.span.start < f.span.stop →
    ∀ g ∈ found s t, ∀ h ∈ found s t, g ≠ f → h ≠ f →
      g.span.contains f.span = true → h.span.contains f.span = true → g = h
  /-- A candidate is kept, or it contains or lies in something kept before. -/
  rejected : ∀ before u later c, t.walk = before ++ u :: later →
    s.classify? (scopesAt s before u) u = some c →
      (after s before).kept.reverse ++ [⟨u, c⟩] <+: found s t ∨
      ∃ g ∈ (after s before).kept, g ∈ found s t ∧
        (g.span.contains u.span = true ∨ u.span.contains g.span = true)

variable {s : Setting} {t : Tree}

theorem pairwise_goesWith (s : Setting) (t : Tree) :
    (found s t).Pairwise fun e f => f.goesWith s.options.nestMembers e = true :=
  List.pairwise_reverse.mpr (pairwise_kept t.walk)

theorem pairwise_span_before (wf : t.WellFormed) :
    (found s t).Pairwise fun e f => e.span.Before f.span := by
  have hsub := nodes_sublist s t
  rw [Tree.walk_eq_preorder] at hsub
  have hnodes := (Tree.pairwise_before wf).sublist hsub
  rwa [List.pairwise_map] at hnodes

theorem apart_of_wellFormed (wf : t.WellFormed) :
    (found s t).Pairwise fun e f =>
      e.span.Disjoint f.span ∨ f.NestsIn s.options.nestMembers e :=
  (pairwise_span_before wf).imp₂ (fun _ _ => Found.disjoint_or_nestsIn) (pairwise_goesWith s t)

theorem distinct_spans (s : Setting) (t : Tree) :
    (found s t).Pairwise fun e f => e.span ≠ f.span := by
  refine (pairwise_goesWith s t).imp fun h heq => ?_
  have hout := Found.not_contains_of_goesWith h
  rw [heq, Span.contains_self] at hout
  exact Bool.noConfusion hout

/-- In whichever order two constructs were kept, they share no byte or one is a member of the
other. -/
theorem disjoint_or_nestsIn_of_mem (wf : t.WellFormed) {e f : Found} (he : e ∈ found s t)
    (hf : f ∈ found s t) (hne : e ≠ f) :
    e.span.Disjoint f.span ∨ f.NestsIn s.options.nestMembers e ∨
      e.NestsIn s.options.nestMembers f := by
  have hsym : Std.Symm fun e f : Found => e.span.Disjoint f.span ∨
      f.NestsIn s.options.nestMembers e ∨ e.NestsIn s.options.nestMembers f :=
    ⟨fun a b h => h.elim (fun hd => .inl hd.symm) fun hn => .inr hn.symm⟩
  have hall : (found s t).Pairwise fun e f => e.span.Disjoint f.span ∨
      f.NestsIn s.options.nestMembers e ∨ e.NestsIn s.options.nestMembers f := by
    refine (apart_of_wellFormed wf).imp fun h => ?_
    rcases h with hd | hn
    · exact .inl hd
    · exact .inr (.inl hn)
  exact hall.forall he hf hne

/-- What lies in another construct is a member of it. -/
theorem nestsIn_of_contains (wf : t.WellFormed) {f g : Found} (hf : f ∈ found s t)
    (hg : g ∈ found s t) (hne : g ≠ f) (hpos : f.span.start < f.span.stop)
    (hin : g.span.contains f.span = true) : f.NestsIn s.options.nestMembers g := by
  have hbounds := Span.contains_iff.mp hin
  rcases disjoint_or_nestsIn_of_mem wf hg hf hne with hd | hn | hn
  · simp only [Span.Disjoint] at hd
    omega
  · exact hn
  · exact absurd hin (by simp [hn.surrounds.2])

theorem enclosing_unique (wf : t.WellFormed) {f g h : Found} (hf : f ∈ found s t)
    (hpos : f.span.start < f.span.stop) (hg : g ∈ found s t) (hh : h ∈ found s t) (hgf : g ≠ f)
    (hhf : h ≠ f) (hin : g.span.contains f.span = true) (hin' : h.span.contains f.span = true) :
    g = h := by
  by_contra hne
  have hng := nestsIn_of_contains wf hf hg hgf hpos hin
  have hnh := nestsIn_of_contains wf hf hh hhf hpos hin'
  have hbounds := Span.contains_iff.mp hin
  have hbounds' := Span.contains_iff.mp hin'
  -- Both hold members, so neither is a member of the other.
  rcases disjoint_or_nestsIn_of_mem wf hg hh hne with hd | hn | hn
  · simp only [Span.Disjoint] at hd
    omega
  · exact absurd hn.isFunction (by simp [Kind.isFunction_of_isContainer hnh.isContainer])
  · exact absurd hn.isFunction (by simp [Kind.isFunction_of_isContainer hng.isContainer])

theorem kept_or_conflict {before later : List Tree} {u : Tree} {c : Candidate}
    (hw : t.walk = before ++ u :: later) (hc : s.classify? (scopesAt s before u) u = some c) :
    (after s before).kept.reverse ++ [⟨u, c⟩] <+: found s t ∨
      ∃ g ∈ (after s before).kept, g ∈ found s t ∧
        (g.span.contains u.span = true ∨ u.span.contains g.span = true) := by
  have hsplit : t.walk = (before ++ [u]) ++ later := by simp [hw]
  have hkept := visit_kept_of_some hc
  rw [← after_concat] at hkept
  cases hadmit : admits s.options.nestMembers (after s before).kept ⟨u, c⟩ with
  | true =>
    have hsuffix := kept_suffix_after (s := s) (before ++ [u]) later
    rw [hkept, hadmit, if_pos rfl, ← hsplit] at hsuffix
    left
    rw [found_eq, ← List.reverse_cons]
    exact List.reverse_prefix.mpr hsuffix
  | false =>
    obtain ⟨g, hg, hno⟩ := List.all_eq_false.mp hadmit
    have hsuffix := kept_suffix_after (s := s) before (u :: later)
    rw [← hw] at hsuffix
    refine .inr ⟨g, hg, ?_, Found.contains_or_of_not_goesWith (Bool.eq_false_iff.mpr hno)⟩
    rw [found_eq]
    exact List.mem_reverse.mpr (hsuffix.subset hg)

/-- A pass over the tree of a parser keeps no overlaps, members apart, and passes over no
candidate without a conflict. -/
theorem overlapFree_of_wellFormed (s : Setting) (t : Tree) (wf : t.WellFormed) :
    OverlapFree s t where
  apart := apart_of_wellFormed wf
  distinct := distinct_spans s t
  strict hs := by
    refine (pairwise_goesWith s t).imp fun h => ?_
    rw [hs] at h
    exact ⟨Found.not_contains_of_goesWith_strict h, Found.not_contains_of_goesWith h⟩
  enclosing _ hf hpos _ hg _ hh := enclosing_unique wf hf hpos hg hh
  rejected _ _ _ _ := kept_or_conflict

/-- The tree of `class A { void f() {} }; class B { void f() {} };`. -/
def twinClasses : Tree := .plain "translation_unit" 0 49 none [classAt 0, classAt 25]
where
  /-- A class with one method, from a byte on. -/
  classAt (a : Nat) : Tree :=
    .plain "class_specifier" a (a + 23) none
      [.plain "type_identifier" (a + 6) (a + 7) (some "name") [],
        .plain "field_declaration_list" (a + 8) (a + 23) (some "body")
          [.plain "function_definition" (a + 10) (a + 21) none
            [.plain "primitive_type" (a + 10) (a + 14) (some "type") [],
              .plain "function_declarator" (a + 15) (a + 18) (some "declarator")
                [.plain "field_identifier" (a + 15) (a + 16) (some "declarator") []],
              .plain "compound_statement" (a + 19) (a + 21) (some "body") []]]]

/-- The text of two classes with one method each. -/
def twinSource : Bytes := Utf8.encode "class A { void f() {} }; class B { void f() {} };"

theorem overlapFree_twinClasses :
    let s : Setting := ⟨.standard, .cpp, twinSource⟩
    twinClasses.WellFormed ∧ OverlapFree s twinClasses ∧
      (found s twinClasses).map (·.span) = [⟨0, 23⟩, ⟨10, 21⟩, ⟨25, 48⟩, ⟨35, 46⟩] :=
  ⟨by decide, overlapFree_of_wellFormed _ _ (by decide), by decide +kernel⟩

end Pass

end CodeSearch
