import CodeSearch.Proofs.Extraction.Attribution
import CodeSearch.Proofs.Extraction.Lines
import CodeSearch.Proofs.Extraction.Overlap

/-! # Members of classes and structs

A pass that lets members nest and one that does not visit the same nodes and meet the same
candidates. The second keeps what the first keeps, except the functions that lie in a class or
a struct. The chunks of both come in the order of the visits, since no line starts before an
earlier one.
-/

namespace CodeSearch

namespace Setting

/-- The setting with another choice for members. -/
def nesting (s : Setting) (nest : Bool) : Setting :=
  { s with options := { s.options with nestMembers := nest } }

/-- Each function in the tree has bytes of its own. -/
def Solid (s : Setting) (t : Tree) : Prop :=
  ∀ u ∈ t.preorder, ∀ scopes c, s.classify? scopes u = some c → c.kind.isFunction = true →
    u.span.start < u.span.stop

end Setting

namespace Found

/-- Whether a construct is a function in a class or a struct among some others. -/
def isMemberAmong (kept : List Found) (f : Found) : Bool :=
  f.kind.isFunction && kept.any fun e => e.kind.isContainer && e.span.contains f.span

variable {kept : List Found} {f g e : Found}

/-- Some constructs without those that are functions in a class or a struct among them. -/
def withoutMembers (kept : List Found) : List Found :=
  kept.filter fun f => !f.isMemberAmong kept

theorem isMemberAmong_iff : f.isMemberAmong kept = true ↔ f.kind.isFunction = true ∧
    ∃ e ∈ kept, e.kind.isContainer = true ∧ e.span.contains f.span = true := by
  simp [isMemberAmong]

/-- What holds members is no member. -/
theorem isMemberAmong_of_isContainer (container : f.kind.isContainer = true) :
    f.isMemberAmong kept = false := by
  rw [isMemberAmong, Kind.isFunction_of_isContainer container, Bool.false_and]

/-- What is kept later holds nothing kept earlier and is no member of itself. -/
theorem isMemberAmong_cons (out : g.span.contains f.span = false ∨ f = g) :
    f.isMemberAmong (g :: kept) = f.isMemberAmong kept := by
  rcases out with out | rfl
  · simp [isMemberAmong, out]
  · cases f.kind.isFunction <;> cases container : f.kind.isContainer <;>
      simp_all [isMemberAmong, Kind.isFunction_of_isContainer]

theorem mem_withoutMembers :
    f ∈ withoutMembers kept ↔ f ∈ kept ∧ f.isMemberAmong kept = false := by
  simp [withoutMembers]

theorem withoutMembers_reverse : withoutMembers kept.reverse = (withoutMembers kept).reverse := by
  have same : ∀ f : Found, f.isMemberAmong kept.reverse = f.isMemberAmong kept := by
    simp [isMemberAmong]
  simp only [withoutMembers, same, List.filter_reverse]

/-- Keeping one more construct that holds none of the others changes nothing about them. -/
theorem withoutMembers_cons (out : ∀ e ∈ kept, f.span.contains e.span = false) :
    withoutMembers (f :: kept) =
      (if f.isMemberAmong kept then [] else [f]) ++ withoutMembers kept := by
  have others : kept.filter (fun e => !e.isMemberAmong (f :: kept)) = withoutMembers kept := by
    refine List.filter_congr fun e listed => ?_
    rw [isMemberAmong_cons (.inl (out e listed))]
  rw [withoutMembers, List.filter_cons, isMemberAmong_cons (.inr rfl), others]
  cases f.isMemberAmong kept <;> rfl

/-- Where members nest, what goes with something else and does not lie in a class or a struct goes
with it also where they do not. -/
theorem goesWith_strict (goes : f.goesWith true e = true) (listed : e ∈ kept)
    (outside : f.isMemberAmong kept = false) : f.goesWith false e = true := by
  have out := not_contains_of_goesWith goes
  have apart : e.span.contains f.span = false := by
    by_contra inside
    simp only [goesWith, isMemberOf, Bool.not_eq_false] at goes inside
    simp only [inside, Bool.not_true, Bool.false_and, Bool.false_or, Bool.true_and,
      Bool.and_eq_true] at goes
    have member := isMemberAmong_iff.mpr ⟨goes.1.1, e, listed, goes.1.2, inside⟩
    exact Bool.noConfusion (outside.symm.trans member)
  simp [goesWith, out, apart]

end Found

namespace Pass

variable {s : Setting} {t u : Tree} {p q : Pass} {f : Found}

/-- What was kept comes from the nodes that were visited. -/
theorem classify?_of_mem_kept {nodes : List Tree} (listed : f ∈ (after s nodes).kept) :
    f.node ∈ nodes ∧ ∃ scopes, s.classify? scopes f.node = some f.candidate := by
  induction nodes using List.reverseRecOn with
  | nil => cases listed
  | append_singleton nodes u ih =>
    rw [after_concat] at listed
    rcases visit_kept_cases (s := s) (after s nodes) u with same | ⟨c, found, kept, -⟩
    · rw [same] at listed
      exact (ih listed).imp_left (List.mem_append_left _)
    · rw [kept] at listed
      rcases List.mem_cons.mp listed with rfl | before
      · exact ⟨List.mem_append_right _ List.mem_cons_self, _, found⟩
      · exact (ih before).imp_left (List.mem_append_left _)

/-! ## The pass without members -/

/-- Two passes have the same scopes open, and the second has kept what the first has, its members
apart. -/
structure Mirrors (p q : Pass) : Prop where
  scopes : q.scopes = p.scopes
  kept : q.kept = Found.withoutMembers p.kept

/-- A candidate is kept without nesting if it is kept with nesting and is no member. -/
theorem admits_strict (mirrors : Mirrors p q) (before : ∀ e ∈ p.kept, e.span.Before f.span)
    (solid : ∀ e ∈ p.kept, e.kind.isFunction = true → e.span.start < e.span.stop) :
    admits false q.kept f = (admits true p.kept f && !f.isMemberAmong p.kept) := by
  have holds : ∀ e ∈ p.kept, e.kind.isContainer = true → e ∈ q.kept := by
    intro e listed container
    rw [mirrors.kept]
    exact Found.mem_withoutMembers.mpr
      ⟨listed, Found.isMemberAmong_of_isContainer container⟩
  rw [Bool.eq_iff_iff, Bool.and_eq_true, Bool.not_eq_true']
  constructor
  · intro admitted
    have goes := List.all_eq_true.mp admitted
    have outside : ∀ e ∈ p.kept, e.kind.isContainer = true → e.span.contains f.span = false :=
      fun e listed container =>
        Found.not_contains_of_goesWith_strict (goes e (holds e listed container))
    constructor
    · refine List.all_eq_true.mpr fun e listed => ?_
      by_contra conflict
      have overlap := Found.contains_or_of_not_goesWith (Bool.eq_false_iff.mpr conflict)
      cases member : e.isMemberAmong p.kept with
      | false =>
        have stays : e ∈ q.kept := by
          rw [mirrors.kept]
          exact Found.mem_withoutMembers.mpr ⟨listed, member⟩
        rcases overlap with inside | around
        · simp [Found.not_contains_of_goesWith_strict (goes e stays)] at inside
        · simp [Found.not_contains_of_goesWith (goes e stays)] at around
      | true =>
        -- A member that is in the way lies in a class or a struct that is in the way as well.
        obtain ⟨isFunction, c, among, container, holder⟩ := Found.isMemberAmong_iff.mp member
        have inside : e.span.contains f.span = true := by
          rcases before e listed with inside | apart
          · exact inside
          · rcases overlap with inside | around
            · exact inside
            · have bounds := Span.contains_iff.mp around
              have filled := solid e listed isFunction
              omega
        have reaches := Span.contains_trans holder inside
        simp [outside c among container] at reaches
    · rw [← Bool.not_eq_true, Found.isMemberAmong_iff]
      rintro ⟨-, e, listed, container, inside⟩
      simp [outside e listed container] at inside
  · rintro ⟨admitted, outside⟩
    refine List.all_eq_true.mpr fun e listed => ?_
    rw [mirrors.kept] at listed
    have among := (Found.mem_withoutMembers.mp listed).1
    exact Found.goesWith_strict (List.all_eq_true.mp admitted e among) among outside

theorem Mirrors.visit (mirrors : Mirrors p q) (before : ∀ e ∈ p.kept, e.span.Before u.span)
    (solid : ∀ e ∈ p.kept, e.kind.isFunction = true → e.span.start < e.span.stop) :
    Mirrors (visit (s.nesting true) p u) (visit (s.nesting false) q u) := by
  obtain ⟨scopes, kept⟩ := id mirrors
  constructor
  · rw [visit_scopes, visit_scopes, scopes]
    rfl
  · cases found : s.classify? (p.scopes.leave u.span.start) u with
    | none =>
      rw [visit_kept_of_none (s := s.nesting true) found,
        visit_kept_of_none (s := s.nesting false) (by rw [scopes]; exact found), kept]
    | some c =>
      have asked := admits_strict (f := ⟨u, c⟩) mirrors before solid
      rw [visit_kept_of_some (s := s.nesting true) found,
        visit_kept_of_some (s := s.nesting false) (by rw [scopes]; exact found)]
      change (if admits false q.kept ⟨u, c⟩ = true then _ else _) =
        Found.withoutMembers (if admits true p.kept ⟨u, c⟩ = true then _ else _)
      rw [asked]
      cases admitted : admits true p.kept ⟨u, c⟩ with
      | false => simpa using kept
      | true =>
        rw [if_pos rfl, Found.withoutMembers_cons fun e listed =>
          Found.not_contains_of_goesWith (List.all_eq_true.mp admitted e listed), ← kept]
        cases Found.isMemberAmong p.kept ⟨u, c⟩ <;> rfl

/-- Both passes after the same visits. The induction is on the visits; that the spans come in order
carries it. -/
theorem mirrors_after {nodes : List Tree} (order : nodes.Pairwise fun a b => a.span.Before b.span)
    (solid : ∀ u ∈ nodes, ∀ scopes c, s.classify? scopes u = some c → c.kind.isFunction = true →
      u.span.start < u.span.stop) :
    Mirrors (after (s.nesting true) nodes) (after (s.nesting false) nodes) := by
  induction nodes using List.reverseRecOn with
  | nil => exact ⟨rfl, rfl⟩
  | append_singleton nodes u ih =>
    obtain ⟨earlier, -, last⟩ := List.pairwise_append.mp order
    have mirrors := ih earlier fun v listed => solid v (List.mem_append_left _ listed)
    rw [after_concat, after_concat]
    refine mirrors.visit (fun e listed => ?_) fun e listed isFunction => ?_
    · exact last _ (classify?_of_mem_kept listed).1 u List.mem_cons_self
    · obtain ⟨visited, scopes, found⟩ := classify?_of_mem_kept listed
      exact solid e.node (List.mem_append_left _ visited) scopes e.candidate found isFunction

/-! ## Chunks in order -/

/-- What is kept is a node of the tree. -/
theorem mem_preorder_of_mem_found {e : Found} (listed : e ∈ found s t) : e.node ∈ t.preorder := by
  rw [← Tree.walk_eq_preorder]
  exact (nodes_sublist s t).subset (List.mem_map_of_mem listed)

/-- Nothing that is kept starts before what was kept earlier. -/
theorem pairwise_start (wf : t.WellFormed) :
    (found s t).Pairwise fun e f => e.span.start ≤ f.span.start := by
  refine (pairwise_span_before wf).imp_of_mem ?_
  rintro e f listed - (inside | apart)
  · exact (Span.contains_iff.mp inside).1
  · exact Nat.le_trans (wf e.node (mem_preorder_of_mem_found listed)).start_le_stop apart

/-- No chunk starts on a line before that of an earlier one. -/
theorem pairwise_startLine (wf : t.WellFormed) (source : Bytes) (file : String) :
    ((found s t).map (Found.toChunk source file)).Pairwise fun c d => c.startLine ≤ d.startLine := by
  refine List.pairwise_map.mpr ((pairwise_start wf).imp ?_)
  intro e f starts
  exact Nat.succ_le_succ (Found.lineFeeds_mono starts)

/-- Chunks come in the order of the visits, which is that of their lines. -/
theorem chunks_eq (wf : t.WellFormed) (name : String) :
    s.chunks name t = (found s t).map (Found.toChunk s.source name) := by
  apply List.mergeSort_of_pairwise
  simpa using pairwise_startLine wf s.source name

/-- In the tree of a parser whose functions have bytes of their own, a pass without nesting keeps
what a pass with nesting keeps, except the functions that lie in a class or a struct that is kept.
The chunks are those of what is kept, in the same order. -/
theorem strict_of_wellFormed (s : Setting) (t : Tree) (wf : t.WellFormed) (solid : s.Solid t) :
    found (s.nesting false) t =
        Found.withoutMembers (found (s.nesting true) t) ∧
      ∀ nest name, (s.nesting nest).chunks name t =
        (found (s.nesting nest) t).map (Found.toChunk s.source name) := by
  constructor
  · have mirrors : Mirrors (after (s.nesting true) t.walk) (after (s.nesting false) t.walk) := by
      rw [Tree.walk_eq_preorder]
      exact mirrors_after (Tree.pairwise_before wf) solid
    rw [found_eq, found_eq, mirrors.kept, Found.withoutMembers_reverse]
  · intro nest name
    exact chunks_eq wf name

/-- A class with a method and a struct in it that has one too, and a function beside the class. -/
theorem strict_nestedScopes :
    let s : Setting :=
      ⟨.standard, .cpp, Utf8.encode "class A { struct B { void f() {} }; void g() {} };"⟩
    nestedScopes.WellFormed ∧ s.Solid nestedScopes ∧
      (found (s.nesting true) nestedScopes).map (·.span) = [⟨0, 49⟩, ⟨21, 32⟩, ⟨36, 47⟩] ∧
      (found (s.nesting false) nestedScopes).map (·.span) = [⟨0, 49⟩] ∧
      found (s.nesting false) nestedScopes =
        Found.withoutMembers (found (s.nesting true) nestedScopes) := by
  intro s
  have filled : ∀ u ∈ nestedScopes.preorder, u.span.start < u.span.stop := by decide
  have solid : s.Solid nestedScopes := fun u listed _ _ _ _ => filled u listed
  have wf : nestedScopes.WellFormed := by decide
  exact ⟨wf, solid, by decide +kernel, by decide +kernel,
    (strict_of_wellFormed s nestedScopes wf solid).1⟩

end Pass

end CodeSearch
