import CodeSearch.Proofs.Extraction.Pass
import CodeSearch.Proofs.Tree.Nesting

/-! # The scope of a function

A pass leaves a scope by byte offsets alone. At a node with bytes of its own the scopes that
are still open are nevertheless those of its ancestors, and a function belongs to the nearest
of them unless its own name tells otherwise.
-/

namespace CodeSearch

namespace Scopes

theorem leave_leave {x y : Nat} (h : x ≤ y) (a : Scopes) : (a.leave x).leave y = a.leave y := by
  induction a with
  | nil => rfl
  | cons f a ih =>
    by_cases hf : f.stop ≤ x
    · have hy : f.stop ≤ y := Nat.le_trans hf h
      simpa [leave, List.dropWhile_cons, hf, hy] using ih
    · simp [leave, List.dropWhile_cons, hf]

theorem leave_eq_self {x : Nat} {a : Scopes} (h : ∀ f ∈ a, x < f.stop) : a.leave x = a := by
  cases a with
  | nil => rfl
  | cons f a =>
    have hf : ¬ f.stop ≤ x := Nat.not_le.mpr (h f List.mem_cons_self)
    simp [leave, hf]

/-- From a byte on, two stacks are left with the same scopes. -/
def AgreeFrom (x : Nat) (a b : Scopes) : Prop := ∀ y, x ≤ y → a.leave y = b.leave y

namespace AgreeFrom

theorem refl (x : Nat) (a : Scopes) : AgreeFrom x a a := fun _ _ => rfl

theorem mono {x y : Nat} {a b : Scopes} (h : AgreeFrom x a b) (hxy : x ≤ y) : AgreeFrom y a b :=
  fun z hz => h z (Nat.le_trans hxy hz)

theorem leave_left {x : Nat} {a b : Scopes} (h : AgreeFrom x a b) :
    AgreeFrom x (a.leave x) b := by
  intro y hy
  rw [leave_leave hy, h y hy]

/-- Both stacks may get one more scope that stops no later than those below it. -/
theorem cons {x : Nat} {a b : Scopes} (f : Scope) (h : AgreeFrom x a b)
    (ha : x < f.stop → a = b) : AgreeFrom x (f :: a) (f :: b) := by
  intro y hy
  by_cases hf : f.stop ≤ y
  · simpa [leave, List.dropWhile_cons, hf] using h y hy
  · rw [ha (by omega)]

/-- A scope that has stopped makes no difference. -/
theorem of_cons {x : Nat} {a b : Scopes} {f : Scope} (h : AgreeFrom x a (f :: b))
    (hf : f.stop ≤ x) : AgreeFrom x a b := by
  intro y hy
  have hfy : f.stop ≤ y := Nat.le_trans hf hy
  have hleave := h y hy
  simpa [leave, List.dropWhile_cons, hfy] using hleave

end AgreeFrom

end Scopes

/-- The scope that a candidate stands for, if it is a class or a struct. -/
def Candidate.scope? (c : Candidate) (stop : Nat) : Option Scope :=
  match c.kind with
  | .classType => c.names.className.map fun name => ⟨.classType, name, stop⟩
  | .structType => c.names.structName.map fun name => ⟨.structType, name, stop⟩
  | _ => none

namespace Setting

variable (s : Setting)

/-- The scope that a node opens: that of a class, a struct or a named type of a struct. -/
def scope? (u : Tree) : Option Scope :=
  ((s.classify? [] u).bind (·.opens)).map fun (kind, name) => ⟨kind, name, u.span.stop⟩

/-- The name of a function, split by its own qualifiers. -/
def functionName? (u : Tree) : Option QualifiedName := do
  let m ← Query.function.match? u
  let declarator ← m.capture? .functionDeclarator
  let node ← Declarator.name? declarator
  QualifiedName.ofTree? s.source node

variable {s}

theorem function?_eq (scopes : Scopes) (u : Tree) :
    s.function? scopes u =
      (s.functionName? u).map fun name => .ofFunction name.leaf (s.owner scopes name) := by
  simp only [function?, functionName?]
  cases Query.function.match? u with
  | none => rfl
  | some m =>
    cases hd : m.capture? .functionDeclarator with
    | none => simp [hd]
    | some d =>
      cases hn : Declarator.name? d with
      | none => simp [hd, hn]
      | some node => cases hq : QualifiedName.ofTree? s.source node <;> simp [hd, hn, hq]

/-- Functions apart, a candidate does not depend on the scopes around it. -/
theorem classify?_eq {u : Tree} (h : u.kind ≠ "function_definition") (a b : Scopes) :
    s.classify? a u = s.classify? b u := by
  simp [classify?, h]

theorem classify?_function {u : Tree} (h : u.kind = "function_definition") (scopes : Scopes) :
    s.classify? scopes u =
      (s.functionName? u).map fun name => .ofFunction name.leaf (s.owner scopes name) := by
  rw [← function?_eq]
  simp [classify?, h]

/-- What a node opens does not depend on the scopes around it. -/
theorem opens_classify? (scopes : Scopes) (u : Tree) :
    (s.classify? scopes u).bind (·.opens) = (s.classify? [] u).bind (·.opens) := by
  by_cases h : u.kind = "function_definition"
  · rw [classify?_function h, classify?_function h]
    cases s.functionName? u <;> rfl
  · rw [classify?_eq h scopes []]

theorem opens_of_classify? {scopes : Scopes} {u : Tree} {c : Candidate} (stop : Nat)
    (h : s.classify? scopes u = some c) :
    (c.opens.map fun (kind, name) => (⟨kind, name, stop⟩ : Scope)) = c.scope? stop := by
  simp only [classify?] at h
  split_ifs at h
  · simp only [classType?] at h
    split_ifs at h
    obtain ⟨name, -, rfl⟩ := Option.map_eq_some_iff.mp h
    rfl
  · obtain ⟨name, -, rfl⟩ := Option.map_eq_some_iff.mp h
    rfl
  · obtain ⟨name, -, rfl⟩ := Option.map_eq_some_iff.mp h
    rfl
  · rw [function?_eq] at h
    obtain ⟨name, -, rfl⟩ := Option.map_eq_some_iff.mp h
    cases ht : isTestName name.leaf <;> simp [Candidate.ofFunction, Candidate.scope?, ht]
  · obtain ⟨name, -, rfl⟩ := Option.map_eq_some_iff.mp h
    rfl
  · obtain ⟨m, -, rfl⟩ := Option.map_eq_some_iff.mp h
    rfl

/-- A node opens the scope of its candidate. -/
theorem scope?_eq (scopes : Scopes) (u : Tree) :
    s.scope? u = (s.classify? scopes u).bind fun c => c.scope? u.span.stop := by
  rw [scope?, ← opens_classify? scopes u]
  cases h : s.classify? scopes u with
  | none => rfl
  | some c => exact opens_of_classify? u.span.stop h

theorem stop_of_scope? {u : Tree} {f : Scope} (h : s.scope? u = some f) :
    f.stop = u.span.stop := by
  obtain ⟨o, -, rfl⟩ := Option.map_eq_some_iff.mp h
  rfl

/-- The name of a function is its leaf, and its owner is said in one of two places. -/
theorem names_ofFunction (leaf : String) (owner : Option (ScopeKind × String)) :
    let names := (Candidate.ofFunction leaf owner).names
    names.functionName = some leaf ∧ (names.className = none ∨ names.structName = none) ∧
      names.className.or names.structName = owner.map (·.2) := by
  rcases owner with _ | ⟨_ | _, _⟩
  · exact ⟨rfl, .inl rfl, rfl⟩
  · exact ⟨rfl, .inr rfl, rfl⟩
  · exact ⟨rfl, .inl rfl, rfl⟩

theorem map_snd_owner (scopes : Scopes) (name : QualifiedName) :
    (s.owner scopes name).map (·.2) = name.scope.or (scopes.head?.map (·.name)) := by
  cases h : name.scope with
  | none => simp [owner, h, Scopes.innermost?, Function.comp_def]
  | some scope => simp [owner, h]

end Setting

namespace Pass

variable {s : Setting}

theorem visit_scopes (p : Pass) (u : Tree) :
    (visit s p u).scopes = (s.scope? u).toList ++ p.scopes.leave u.span.start := by
  have hopens := Setting.opens_classify? (s := s) (p.scopes.leave u.span.start) u
  simp only [Setting.scope?, ← hopens, visit]
  cases s.classify? (p.scopes.leave u.span.start) u with
  | none => rfl
  | some c =>
    rcases hc : c.opens with _ | ⟨kind, name⟩
    · simp [openScope, hc]
    · simp [openScope, hc, Scopes.enter, Found.span]

/-- The scopes that the nodes of a list open. -/
abbrev frames (s : Setting) (nodes : List Tree) : Scopes := nodes.filterMap s.scope?

/-- At each node with bytes of its own, a pass that starts in a state has open the scopes of
the ancestors that the node is listed with. -/
def Attributes (s : Setting) (p : Pass) (nodes : List (List Tree × Tree)) : Prop :=
  ∀ before above u later, nodes = before ++ (above, u) :: later → u.span.start < u.span.stop →
    ((before.map (·.2)).foldl (visit s) p).scopes.leave u.span.start = frames s above

theorem Attributes.append {p : Pass} {xs ys : List (List Tree × Tree)}
    (hx : Attributes s p xs) (hy : Attributes s ((xs.map (·.2)).foldl (visit s) p) ys) :
    Attributes s p (xs ++ ys) := by
  intro before above u later hsplit hpos
  rcases List.append_eq_append_iff.mp hsplit with ⟨rest, rfl, hrest⟩ | ⟨rest, rfl, hrest⟩
  · rw [List.map_append, List.foldl_append]
    exact hy rest above u later hrest hpos
  · cases rest with
    | nil =>
      rw [List.append_nil] at hy
      exact hy [] above u later hrest.symm hpos
    | cons x rest =>
      obtain ⟨rfl, -⟩ := List.cons_eq_cons.mp hrest
      exact hx before above u rest rfl hpos

/-- A visit opens the scope of its node over those of the ancestors. -/
theorem agreeFrom_visit {p : Pass} {t : Tree} {above : List Tree}
    (h : Scopes.AgreeFrom t.span.start p.scopes (frames s above))
    (ha : ∀ f ∈ frames s above, t.span.stop ≤ f.stop) :
    Scopes.AgreeFrom t.span.start (visit s p t).scopes (frames s (t :: above)) := by
  rw [visit_scopes, frames, List.filterMap_cons]
  cases hf : s.scope? t with
  | none => exact h.leave_left
  | some f =>
    refine Scopes.AgreeFrom.cons f h.leave_left fun hpos => ?_
    rw [Setting.stop_of_scope? hf] at hpos
    rw [h _ (Nat.le_refl _)]
    exact Scopes.leave_eq_self fun g hg => Nat.lt_of_lt_of_le hpos (ha g hg)

/-- What the scope of a node stops with does not matter after the node. -/
theorem agreeFrom_stop {a : Scopes} {t : Tree} {above : List Tree}
    (h : Scopes.AgreeFrom t.span.stop a (frames s (t :: above))) :
    Scopes.AgreeFrom t.span.stop a (frames s above) := by
  rw [frames, List.filterMap_cons] at h
  cases hf : s.scope? t with
  | none => rwa [hf] at h
  | some f =>
    rw [hf] at h
    exact h.of_cons (Nat.le_of_eq (Setting.stop_of_scope? hf))

mutual

/-- The visits to a tree below some ancestors. The induction is on the tree; what carries it
is that the open scopes and those of the ancestors agree from where the tree starts. -/
theorem attributes_lineage : ∀ {t : Tree}, t.WellFormed → ∀ {p : Pass} {above : List Tree},
    Scopes.AgreeFrom t.span.start p.scopes (frames s above) →
    (∀ f ∈ frames s above, t.span.stop ≤ f.stop) →
    Attributes s p (t.lineage above) ∧
      Scopes.AgreeFrom t.span.stop (t.preorder.foldl (visit s) p).scopes (frames s above)
  | .node l cs, wf, p, above, h, ha => by
    have horder := wf.orderly
    have hopen := agreeFrom_visit h ha
    have hstops : ∀ f ∈ frames s (.node l cs :: above), l.span.stop ≤ f.stop := by
      intro f hf
      obtain ⟨u, hu, huf⟩ := List.mem_filterMap.mp hf
      rcases List.mem_cons.mp hu with rfl | hu
      · exact Nat.le_of_eq (Setting.stop_of_scope? huf).symm
      · exact ha f (List.mem_filterMap.mpr ⟨u, hu, huf⟩)
    obtain ⟨hall, hagree⟩ := attributes_lineages cs (fun c hc => wf.child hc) horder.siblings
      hopen (fun c hc => (Span.contains_iff.mp (horder.children_in c hc)).1)
      (fun c hc => (Span.contains_iff.mp (horder.children_in c hc)).2) horder.start_le_stop hstops
    constructor
    · rw [Tree.lineage, ← List.singleton_append]
      refine Attributes.append ?_ hall
      intro before v u later hsplit hpos
      obtain ⟨rfl, hu, -⟩ : before = [] ∧ (above, Tree.node l cs) = (v, u) ∧ later = [] := by
        cases before <;> simp_all
      cases hu
      exact (h _ (Nat.le_refl _)).trans
        (Scopes.leave_eq_self fun g hg => Nat.lt_of_lt_of_le hpos (ha g hg))
    · rw [Tree.preorder, List.foldl_cons]
      exact agreeFrom_stop hagree

theorem attributes_lineages {start stop : Nat} {above : List Tree} : ∀ (ts : List Tree),
    (∀ t ∈ ts, t.WellFormed) → ts.Pairwise (fun a b => a.span.stop ≤ b.span.start) →
    ∀ {p : Pass}, Scopes.AgreeFrom start p.scopes (frames s above) →
    (∀ t ∈ ts, start ≤ t.span.start) → (∀ t ∈ ts, t.span.stop ≤ stop) → start ≤ stop →
    (∀ f ∈ frames s above, stop ≤ f.stop) →
    Attributes s p (Tree.lineages above ts) ∧
      Scopes.AgreeFrom stop ((Tree.preorders ts).foldl (visit s) p).scopes (frames s above)
  | [], _, _, p, h, _, _, hle, _ => by
    refine ⟨fun before v u later hsplit => ?_, h.mono hle⟩
    simp [Tree.lineages] at hsplit
  | t :: ts, wf, hsib, p, h, hstart, hstop, _, ha => by
    obtain ⟨hnext, hsib⟩ := List.pairwise_cons.mp hsib
    have hbound := hstop t List.mem_cons_self
    obtain ⟨hone, hagree⟩ := attributes_lineage (wf t List.mem_cons_self)
      (h.mono (hstart t List.mem_cons_self)) fun f hf => Nat.le_trans hbound (ha f hf)
    obtain ⟨hall, hlast⟩ := attributes_lineages ts (fun u hu => wf u (List.mem_cons_of_mem _ hu))
      hsib hagree hnext (fun u hu => hstop u (List.mem_cons_of_mem _ hu)) hbound ha
    constructor
    · rw [Tree.lineages]
      refine hone.append ?_
      rwa [Tree.map_snd_lineage]
    · rwa [Tree.preorders, List.foldl_append]

end

/-- What a pass over a tree promises of the scopes that are open at its nodes. -/
structure NearestScope (s : Setting) (t : Tree) : Prop where
  /-- The visits go through the nodes in the order in which they are listed with ancestors. -/
  visits : (t.lineage []).map (·.2) = t.walk
  /-- A scope is that of a class or a struct, goes by its name and stops with it. -/
  scope : ∀ scopes u,
    s.scope? u = (s.classify? scopes u).bind fun c => c.scope? u.span.stop
  /-- At a node with bytes of its own, the scopes of its ancestors are open and no others. -/
  scopes : ∀ before above u later, t.lineage [] = before ++ (above, u) :: later →
    u.span.start < u.span.stop →
      scopesAt s (before.map (·.2)) u = above.filterMap s.scope?
  /-- A function belongs to the scope in its name, else to the nearest ancestor with a scope. -/
  owner : ∀ before above u later c, t.lineage [] = before ++ (above, u) :: later →
    u.span.start < u.span.stop → u.kind = "function_definition" →
    s.classify? (scopesAt s (before.map (·.2)) u) u = some c →
      ∃ name, s.functionName? u = some name ∧ ∀ file,
        let names := (Found.toChunk s.source file ⟨u, c⟩).names
        names.functionName = some name.leaf ∧
          (names.className = none ∨ names.structName = none) ∧
          names.className.or names.structName =
            name.scope.or ((above.filterMap s.scope?).head?.map (·.name))

theorem scopesAt_lineage {t : Tree} (wf : t.WellFormed) :
    Attributes s empty (t.lineage []) := by
  have agree : Scopes.AgreeFrom t.span.start empty.scopes (frames s []) := Scopes.AgreeFrom.refl _ _
  refine (attributes_lineage wf agree ?_).1
  intro f hf
  exact absurd hf List.not_mem_nil

/-- In the tree of a parser every function belongs to its nearest scope. -/
theorem nearestScope_of_wellFormed (s : Setting) (t : Tree) (wf : t.WellFormed) :
    NearestScope s t where
  visits := by rw [Tree.map_snd_lineage, Tree.walk_eq_preorder]
  scope := Setting.scope?_eq
  scopes := scopesAt_lineage wf
  owner := by
    intro before above u later c hsplit hpos hkind hc
    have hscopes : scopesAt s (before.map (·.2)) u = above.filterMap s.scope? :=
      scopesAt_lineage wf before above u later hsplit hpos
    rw [hscopes, Setting.classify?_function hkind] at hc
    obtain ⟨name, hname, rfl⟩ := Option.map_eq_some_iff.mp hc
    refine ⟨name, hname, fun file => ?_⟩
    obtain ⟨hleaf, hone, howner⟩ :=
      Setting.names_ofFunction name.leaf (s.owner (above.filterMap s.scope?) name)
    exact ⟨hleaf, hone, howner.trans (Setting.map_snd_owner _ name)⟩

/-- The tree of `class A { struct B { void f() {} }; void g() {} };`. -/
def nestedScopes : Tree :=
  .plain "translation_unit" 0 50 none
    [.plain "class_specifier" 0 49 none
      [.plain "type_identifier" 6 7 (some "name") [],
        .plain "field_declaration_list" 8 49 (some "body")
          [.plain "field_declaration" 10 35 none
            [.plain "struct_specifier" 10 34 (some "type")
              [.plain "type_identifier" 17 18 (some "name") [],
                .plain "field_declaration_list" 19 34 (some "body") [method 21]]],
            method 36]]]
where
  /-- A method without a body, from a byte on. -/
  method (a : Nat) : Tree :=
    .plain "function_definition" a (a + 11) none
      [.plain "primitive_type" a (a + 4) (some "type") [],
        .plain "function_declarator" (a + 5) (a + 8) (some "declarator")
          [.plain "field_identifier" (a + 5) (a + 6) (some "declarator") []],
        .plain "compound_statement" (a + 9) (a + 11) (some "body") []]

/-- The struct gets no chunk, being inside the class, and is still the owner of its method. -/
theorem nearestScope_nestedScopes :
    let s : Setting :=
      ⟨.standard, .cpp, Utf8.encode "class A { struct B { void f() {} }; void g() {} };"⟩
    nestedScopes.WellFormed ∧ NearestScope s nestedScopes ∧
      (found s nestedScopes).map (fun f => (f.candidate.names.functionName,
        f.candidate.names.className)) =
        [(none, some "A"), (some "f", some "B"), (some "g", some "A")] :=
  ⟨by decide, nearestScope_of_wellFormed _ _ (by decide), by decide +kernel⟩

end Pass

end CodeSearch
