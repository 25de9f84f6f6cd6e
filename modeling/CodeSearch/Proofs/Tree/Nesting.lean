import Mathlib.Data.List.Pairwise
import CodeSearch.Proofs.Tree.Walk

/-! # Trees whose spans nest

In the trees of a parser the children of a node lie in its span, one after the other. So of
two nodes in pre-order the later one lies in the earlier one or starts where that one stops
or after. The ancestors of a node are listed beside it, the nearest first.
-/

namespace CodeSearch

namespace Span

/-- No byte lies in both spans. -/
def Disjoint (a b : Span) : Prop := a.stop ≤ b.start ∨ b.stop ≤ a.start

instance (a b : Span) : Decidable (Disjoint a b) := inferInstanceAs (Decidable (_ ∨ _))

/-- In the span, and not the same span. -/
def Surrounds (outer inner : Span) : Prop :=
  outer.contains inner = true ∧ inner.contains outer = false

instance (a b : Span) : Decidable (Surrounds a b) := inferInstanceAs (Decidable (_ ∧ _))

/-- The byte at a place is in the span. -/
def Covers (s : Span) (i : Nat) : Prop := s.start ≤ i ∧ i < s.stop

theorem Covers.of_contains {a b : Span} {i : Nat} (covers : b.Covers i)
    (contains : a.contains b = true) : a.Covers i := by
  obtain ⟨starts, stops⟩ := contains_iff.mp contains
  exact ⟨Nat.le_trans starts covers.1, Nat.lt_of_lt_of_le covers.2 stops⟩

theorem Disjoint.not_covers {a b : Span} {i : Nat} (disjoint : a.Disjoint b) (covers : a.Covers i) :
    ¬ b.Covers i := by
  rintro ⟨starts, stops⟩
  obtain ⟨starts', stops'⟩ := covers
  rcases disjoint with apart | apart <;> omega

/-- What pre-order says of the span of an earlier node and that of a later one. -/
def Before (a b : Span) : Prop := a.contains b = true ∨ a.stop ≤ b.start

end Span

namespace Tree

/-- The children of a node lie in its span, one after the other. -/
structure Orderly (u : Tree) : Prop where
  start_le_stop : u.span.start ≤ u.span.stop
  children_in : ∀ c ∈ u.children, u.span.contains c.span = true
  siblings : u.children.Pairwise fun a b => a.span.stop ≤ b.span.start

instance (u : Tree) : Decidable u.Orderly :=
  decidable_of_iff
    (u.span.start ≤ u.span.stop ∧ (∀ c ∈ u.children, u.span.contains c.span = true) ∧
      u.children.Pairwise fun a b => a.span.stop ≤ b.span.start)
    ⟨fun ⟨h, h', h''⟩ => ⟨h, h', h''⟩, fun h => ⟨h.1, h.2, h.3⟩⟩

/-- A named node without further marks. -/
def plain (kind : String) (start stop : Nat) (field : Option String) (children : List Tree) :
    Tree :=
  node ⟨kind, ⟨start, stop⟩, true, false, false, false, field⟩ children

/-- A tree as a parser gives it. -/
def WellFormed (t : Tree) : Prop := ∀ u ∈ t.preorder, u.Orderly

instance (t : Tree) : Decidable t.WellFormed := inferInstanceAs (Decidable (∀ u ∈ _, _))

theorem mem_preorders {u : Tree} {ts : List Tree} :
    u ∈ preorders ts ↔ ∃ t ∈ ts, u ∈ t.preorder := by
  rw [preorders_eq_flatMap, List.mem_flatMap]

theorem mem_preorder_self (t : Tree) : t ∈ t.preorder := by
  rw [preorder_eq]
  exact List.mem_cons_self

theorem WellFormed.orderly {t : Tree} (h : t.WellFormed) : t.Orderly := h t t.mem_preorder_self

theorem preorder_subset_of_child {t c : Tree} (child : c ∈ t.children) :
    c.preorder ⊆ t.preorder := by
  intro u listed
  rw [preorder_eq]
  exact List.mem_cons_of_mem _ (mem_preorders.mpr ⟨c, child, listed⟩)

theorem WellFormed.child {t c : Tree} (h : t.WellFormed) (hc : c ∈ t.children) :
    c.WellFormed :=
  fun u hu => h u (preorder_subset_of_child hc hu)

mutual

/-- Every node lies in the span of the tree. -/
theorem contains_of_mem_preorder : ∀ {t : Tree}, t.WellFormed → ∀ u ∈ t.preorder,
    t.span.contains u.span = true
  | node l cs, h, u, hu => by
    rw [preorder] at hu
    rcases List.mem_cons.mp hu with rfl | hu
    · exact Span.contains_self _
    · exact contains_of_mem_preorders cs h.orderly.children_in (fun c hc => h.child hc) u hu

theorem contains_of_mem_preorders {s : Span} : ∀ ts : List Tree,
    (∀ c ∈ ts, s.contains c.span = true) → (∀ c ∈ ts, c.WellFormed) →
    ∀ u ∈ preorders ts, s.contains u.span = true
  | [], _, _, u, hu => by simp [preorders] at hu
  | t :: ts, hs, hw, u, hu => by
    rcases List.mem_append.mp hu with hu | hu
    · exact Span.contains_trans (hs t List.mem_cons_self)
        (contains_of_mem_preorder (hw t List.mem_cons_self) u hu)
    · exact contains_of_mem_preorders ts (fun c hc => hs c (List.mem_cons_of_mem _ hc))
        (fun c hc => hw c (List.mem_cons_of_mem _ hc)) u hu

end

/-- A node below the root that shares a byte with a child is in the tree of that child. -/
theorem mem_preorder_of_covers {t c u : Tree} {i : Nat} (wf : t.WellFormed) (child : c ∈ t.children)
    (listed : u ∈ t.preorder) (below : u ≠ t) (here : u.span.Covers i) (there : c.span.Covers i) :
    u ∈ c.preorder := by
  rw [preorder_eq] at listed
  obtain ⟨d, other, inside⟩ := mem_preorders.mp ((List.mem_cons.mp listed).resolve_left below)
  by_cases same : d = c
  · rwa [← same]
  · have symm : Std.Symm fun a b : Tree => a.span.Disjoint b.span := ⟨fun _ _ => Or.symm⟩
    have siblings := wf.orderly.siblings.imp
      (S := fun a b : Tree => a.span.Disjoint b.span) Or.inl
    have around := contains_of_mem_preorder (wf.child other) u inside
    exact absurd there ((siblings.forall other child same).not_covers (here.of_contains around))

/-- What lies in later siblings starts where an earlier one stops or after. -/
theorem stop_le_start_of_siblings {t : Tree} {ts : List Tree}
    (hs : ∀ c ∈ ts, t.span.stop ≤ c.span.start) (hw : ∀ c ∈ ts, c.WellFormed)
    {u : Tree} (hu : u ∈ preorders ts) : t.span.stop ≤ u.span.start := by
  obtain ⟨c, hc, hu⟩ := mem_preorders.mp hu
  have hin := Span.contains_iff.mp (contains_of_mem_preorder (hw c hc) u hu)
  exact Nat.le_trans (hs c hc) hin.1

mutual

/-- A later node lies in an earlier one or starts where that one stops or after. -/
theorem pairwise_before : ∀ {t : Tree}, t.WellFormed →
    t.preorder.Pairwise fun a b => a.span.Before b.span
  | node l cs, h => by
    rw [preorder]
    refine List.pairwise_cons.mpr ⟨fun u hu => .inl ?_, ?_⟩
    · exact contains_of_mem_preorders cs h.orderly.children_in (fun c hc => h.child hc) u hu
    · exact pairwise_before_all cs h.orderly.siblings fun c hc => h.child hc

theorem pairwise_before_all : ∀ ts : List Tree,
    ts.Pairwise (fun a b => a.span.stop ≤ b.span.start) → (∀ c ∈ ts, c.WellFormed) →
    (preorders ts).Pairwise fun a b => a.span.Before b.span
  | [], _, _ => by simp [preorders]
  | t :: ts, hs, hw => by
    obtain ⟨ht, hs⟩ := List.pairwise_cons.mp hs
    have hwt := hw t List.mem_cons_self
    have hwts : ∀ c ∈ ts, c.WellFormed := fun c hc => hw c (List.mem_cons_of_mem _ hc)
    refine List.pairwise_append.mpr
      ⟨pairwise_before hwt, pairwise_before_all ts hs hwts, fun a ha b hb => .inr ?_⟩
    have hin := Span.contains_iff.mp (contains_of_mem_preorder hwt a ha)
    exact Nat.le_trans hin.2 (stop_le_start_of_siblings ht hwts hb)

end

mutual

/-- The nodes in pre-order, each after its proper ancestors, the nearest of them first. The
list `above` has the ancestors of the whole tree. -/
def lineage (above : List Tree) : Tree → List (List Tree × Tree)
  | node l cs => (above, node l cs) :: lineages (node l cs :: above) cs

def lineages (above : List Tree) : List Tree → List (List Tree × Tree)
  | [] => []
  | t :: ts => lineage above t ++ lineages above ts

end

mutual

theorem map_snd_lineage (above : List Tree) : ∀ t : Tree, (t.lineage above).map (·.2) = t.preorder
  | node l cs => by rw [lineage, preorder, List.map_cons, map_snd_lineages _ cs]

theorem map_snd_lineages (above : List Tree) : ∀ ts : List Tree,
    (lineages above ts).map (·.2) = preorders ts
  | [] => rfl
  | t :: ts => by
    rw [lineages, preorders, List.map_append, map_snd_lineage above t, map_snd_lineages above ts]

end

end Tree

end CodeSearch
