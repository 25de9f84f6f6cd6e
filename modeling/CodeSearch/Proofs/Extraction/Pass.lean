import Mathlib.Data.List.Induction
import CodeSearch.Extraction.Pass

/-! # What a pass keeps

The state of a pass after some visits. What a visit keeps stands before what was kept until
then, and what was kept goes together pair by pair.
-/

namespace CodeSearch

namespace Pass

variable {s : Setting}

/-- The state of a pass after visits to some nodes. -/
def after (s : Setting) (nodes : List Tree) : Pass := nodes.foldl (visit s) empty

/-- The scopes that a pass has open when it looks at a node. -/
def scopesAt (s : Setting) (before : List Tree) (u : Tree) : Scopes :=
  (after s before).scopes.leave u.span.start

theorem after_concat (nodes : List Tree) (u : Tree) :
    after s (nodes ++ [u]) = visit s (after s nodes) u := by
  simp [after]

/-- What holds at first and is kept by each visit holds after all visits. -/
@[elab_as_elim]
theorem after_induction {motive : Pass → Prop} (start : motive empty)
    (step : ∀ p u, motive p → motive (visit s p u)) (nodes : List Tree) :
    motive (after s nodes) := by
  induction nodes using List.reverseRecOn with
  | nil => exact start
  | append_singleton nodes u ih =>
    rw [after_concat]
    exact step _ u ih

theorem visit_kept_of_none {p : Pass} {u : Tree}
    (h : s.classify? (p.scopes.leave u.span.start) u = none) : (visit s p u).kept = p.kept := by
  simp [visit, h]

theorem visit_kept_of_some {p : Pass} {u : Tree} {c : Candidate}
    (h : s.classify? (p.scopes.leave u.span.start) u = some c) :
    (visit s p u).kept =
      if admits s.options.nestMembers p.kept ⟨u, c⟩ then ⟨u, c⟩ :: p.kept else p.kept := by
  simp [visit, h]

/-- A visit keeps nothing new, or the candidate of its node, which goes with all kept before. -/
theorem visit_kept_cases (p : Pass) (u : Tree) :
    (visit s p u).kept = p.kept ∨
      ∃ c, s.classify? (p.scopes.leave u.span.start) u = some c ∧
        (visit s p u).kept = ⟨u, c⟩ :: p.kept ∧
        ∀ e ∈ p.kept, Found.goesWith s.options.nestMembers ⟨u, c⟩ e = true := by
  cases h : s.classify? (p.scopes.leave u.span.start) u with
  | none => exact .inl (visit_kept_of_none h)
  | some c =>
    rw [visit_kept_of_some h]
    split
    · rename_i hadmit
      exact .inr ⟨c, rfl, rfl, List.all_eq_true.mp hadmit⟩
    · exact .inl rfl

theorem kept_suffix_visit (p : Pass) (u : Tree) : p.kept <:+ (visit s p u).kept := by
  rcases visit_kept_cases (s := s) p u with h | ⟨c, -, h, -⟩
  · rewrite [h]
    exact List.suffix_rfl
  · rw [h]
    exact List.suffix_cons _ _

theorem kept_suffix_foldl (nodes : List Tree) (p : Pass) :
    p.kept <:+ (nodes.foldl (visit s) p).kept := by
  induction nodes generalizing p with
  | nil => exact List.suffix_rfl
  | cons u nodes ih => exact (kept_suffix_visit p u).trans (ih (visit s p u))

/-- What is kept once stays. -/
theorem kept_suffix_after (before later : List Tree) :
    (after s before).kept <:+ (after s (before ++ later)).kept := by
  rw [after, after, List.foldl_append]
  exact kept_suffix_foldl later _

/-- Two kept constructs go together, the later one being the one that was asked. -/
theorem pairwise_kept (nodes : List Tree) :
    (after s nodes).kept.Pairwise fun f e => f.goesWith s.options.nestMembers e = true := by
  refine after_induction List.Pairwise.nil (fun p u ih => ?_) nodes
  rcases visit_kept_cases (s := s) p u with h | ⟨c, -, h, hc⟩
  · rwa [h]
  · rw [h]
    exact List.pairwise_cons.mpr ⟨hc, ih⟩

/-- The nodes of what is kept were visited in that order. -/
theorem kept_sublist (nodes : List Tree) :
    ((after s nodes).kept.reverse.map (·.node)).Sublist nodes := by
  induction nodes using List.reverseRecOn with
  | nil => exact .slnil
  | append_singleton nodes u ih =>
    rw [after_concat]
    rcases visit_kept_cases (s := s) (after s nodes) u with h | ⟨c, -, h, -⟩
    · rw [h]
      exact ih.trans (List.sublist_append_left nodes [u])
    · rw [h, List.reverse_cons, List.map_append]
      exact ih.append (List.Sublist.refl [u])

theorem found_eq (s : Setting) (t : Tree) : found s t = (after s t.walk).kept.reverse := rfl

theorem nodes_sublist (s : Setting) (t : Tree) : ((found s t).map (·.node)).Sublist t.walk :=
  kept_sublist t.walk

end Pass

end CodeSearch
