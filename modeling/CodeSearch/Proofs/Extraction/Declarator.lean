import CodeSearch.Proofs.Extraction.Attribution
import CodeSearch.Proofs.Tree.Chain

/-! # The names of functions

A declarator leads to its name through what it wraps. What a wrapper wraps is in a field or
else among its children, where comments and attributes may stand beside it. The name is taken
from the last child, so it is the right one exactly if no wrapper ends in such an aside.
-/

namespace CodeSearch

namespace Declarator

open CodeSearch.Tree

variable {t u : Tree}

/-- A comment or an attribute. -/
def isAside (t : Tree) : Bool := t.kind = "comment" || t.kind = "attribute_declaration"

/-- What a wrapper wraps if asides do not count. -/
def wrapped? (t : Tree) : Option Tree :=
  if isWrapper t then
    (t.field? "declarator").or (t.children.filter fun c => !isAside c && c.label.named).getLast?
  else none

/-- The end of what a declarator wraps, if there is a function declarator on the way. -/
def named? (t : Tree) : Option Tree :=
  let chain := t.chain wrapped?
  if chain.any isFunction then chain.getLast? else none

/-- A wrapper shows what it wraps by a field or ends in it. -/
def isPlain (t : Tree) : Bool :=
  !isWrapper t || (t.field? "declarator").isSome || (lastNamed? t).any fun c => !isAside c

/-- All wrappers around the name are plain. -/
def Clear (t : Tree) : Prop := ∀ u ∈ t.chain wrapped?, isPlain u = true

instance (t : Tree) : Decidable (Clear t) :=
  inferInstanceAs (Decidable (∀ u ∈ t.chain wrapped?, isPlain u = true))

theorem name?_eq_some :
    name? t = some u ↔ (t.chain next?).getLast? = some u ∧ isWrapper u = false ∧
      (t.chain next?).any isFunction = true := by
  rw [name?, Option.bind_eq_some_iff]
  constructor
  · rintro ⟨last, ends, found⟩
    split at found
    · rename_i name
      obtain rfl := Option.some.inj found
      simpa [ends] using name
    · cases found
  · rintro ⟨ends, name, passed⟩
    exact ⟨u, ends, by simp only [name, passed]; rfl⟩

theorem named?_eq_some :
    named? t = some u ↔ (t.chain wrapped?).any isFunction = true ∧
      (t.chain wrapped?).getLast? = some u := by
  simp [named?]

theorem mem_children_of_or {p : Tree → Bool}
    (found : (t.field? "declarator").or (t.children.filter p).getLast? = some u) :
    u ∈ t.children := by
  rcases Option.or_eq_some_iff.mp found with field | ⟨-, last⟩
  · exact List.mem_of_find?_eq_some field
  · exact (List.mem_filter.mp (List.mem_of_getLast? last)).1

theorem descends_next? : Descends next? := by
  intro t u next
  rw [next?] at next
  split at next
  · exact mem_children_of_or next
  · cases next

theorem descends_wrapped? : Descends wrapped? := by
  intro t u next
  rw [wrapped?] at next
  split at next
  · exact mem_children_of_or next
  · cases next

theorem not_isWrapper_of_isAside (aside : isAside t = true) : isWrapper t = false := by
  simp only [isAside, Bool.or_eq_true, decide_eq_true_eq] at aside
  rcases aside with comment | attr
  · simp [isWrapper, isFunction, comment]
  · simp [isWrapper, isFunction, attr]

theorem not_isFunction_of_not_isWrapper (name : isWrapper t = false) : isFunction t = false := by
  simp only [isWrapper, Bool.or_eq_false_iff] at name
  exact name.1.1.1.1

theorem next?_of_isPlain (plain : isPlain t = true) : next? t = wrapped? t := by
  rw [next?, wrapped?, inner?]
  split
  · rename_i wraps
    cases field : t.field? "declarator" with
    | some u => rfl
    | none =>
      simp only [isPlain, wraps, field, Option.isSome_none, Bool.not_true, Bool.false_or] at plain
      cases last : lastNamed? t with
      | none =>
        rw [last] at plain
        cases plain
      | some v =>
        obtain ⟨front, listed⟩ := List.getLast?_eq_some_iff.mp last
        have kept : [v].filter (fun c => !isAside c) = [v] := by simpa [last] using plain
        rw [Option.none_or, Option.none_or, ← List.filter_filter, listed, List.filter_append, kept,
          List.getLast?_concat]
  · rfl

/-- A wrapper that is not plain ends in an aside or in nothing with a name. -/
theorem next?_of_not_isPlain (hidden : isPlain t = false) :
    isWrapper t = true ∧ ∀ u, next? t = some u → isAside u = true := by
  simp only [isPlain, Bool.or_eq_false_iff, Bool.not_eq_false', Option.isSome_eq_false_iff,
    Option.isNone_iff_eq_none] at hidden
  obtain ⟨⟨wraps, field⟩, last⟩ := hidden
  refine ⟨wraps, fun u next => ?_⟩
  rw [next?, if_pos wraps, inner?, field, Option.none_or] at next
  rw [next] at last
  simpa using last

theorem not_isWrapper_of_isPlain (plain : isPlain t = true) (stops : next? t = none) :
    isWrapper t = false := by
  rw [next?] at stops
  split at stops
  · rw [inner?, Option.or_eq_none_iff] at stops
    rw [isPlain, stops.1, stops.2] at plain
    simpa using plain
  · rename_i other
    exact Bool.eq_false_iff.mpr other

/-! ## Clear declarators -/

/-- Along a clear chain the extraction goes as it should. -/
theorem chain_of_clear (clear : Clear t) : t.chain next? = t.chain wrapped? := by
  apply chain_congr descends_next? descends_wrapped?
  intro u listed
  exact next?_of_isPlain (clear u listed)

theorem name?_of_clear (clear : Clear t) : name? t = named? t := by
  obtain ⟨last, ends, stops⟩ := exists_getLast?_chain descends_wrapped? t
  have plain := clear last (List.mem_of_getLast? ends)
  have name := not_isWrapper_of_isPlain plain ((next?_of_isPlain plain).trans stops)
  simp [name?, named?, chain_of_clear clear, ends, name]

/-- Where an aside hides what a wrapper wraps, the way ends there. -/
theorem chain_of_not_isPlain (hidden : isPlain t = false) :
    t.chain next? = [t] ∨ ∃ u, t.chain next? = [t, u] ∧ isAside u = true := by
  obtain ⟨-, aside⟩ := next?_of_not_isPlain hidden
  cases next : next? t with
  | none => exact .inl (chain_of_none next)
  | some u =>
    have stops : next? u = none := by
      rw [next?, not_isWrapper_of_isAside (aside u next)]
      rfl
    refine .inr ⟨u, ?_, aside u next⟩
    rw [chain_of_some descends_next? next, chain_of_none stops]

theorem clear_of_some (next : wrapped? t = some u) :
    Clear t ↔ isPlain t = true ∧ Clear u := by
  rw [Clear, chain_of_some descends_wrapped? next, List.forall_mem_cons]
  rfl

theorem clear_of_none (next : wrapped? t = none) : Clear t ↔ isPlain t = true := by
  rw [Clear, chain_of_none next, List.forall_mem_singleton]

/-- A way ends where an aside hides what a wrapper wraps, or it goes on as it would without
asides. -/
theorem way_induction {motive : Tree → Prop} (hide : ∀ t, isPlain t = false → motive t)
    (stop : ∀ t, isPlain t = true → next? t = none → wrapped? t = none → motive t)
    (go : ∀ t u, isPlain t = true → next? t = some u → wrapped? t = some u → motive u → motive t)
    (t : Tree) : motive t := by
  induction t using chain_induction descends_wrapped? with
  | stop t next =>
    cases plain : isPlain t with
    | false => exact hide t plain
    | true => exact stop t plain ((next?_of_isPlain plain).trans next) next
  | go t u next ih =>
    cases plain : isPlain t with
    | false => exact hide t plain
    | true => exact go t u plain ((next?_of_isPlain plain).trans next) next ih

/-- A way that is not clear ends in an aside or in a wrapper. -/
theorem getLast?_of_not_clear {last : Tree} (unclear : ¬ Clear t)
    (ends : (t.chain next?).getLast? = some last) :
    isAside last = true ∨ isWrapper last = true := by
  induction t using way_induction with
  | hide t hidden =>
    rcases chain_of_not_isPlain hidden with alone | ⟨u, beyond, aside⟩
    · rw [alone] at ends
      obtain rfl : t = last := Option.some.inj ends
      exact .inr (next?_of_not_isPlain hidden).1
    · rw [beyond] at ends
      obtain rfl : u = last := Option.some.inj ends
      exact .inl aside
  | stop t plain next wrapped => exact absurd ((clear_of_none wrapped).mpr plain) unclear
  | go t u plain next wrapped ih =>
    rw [clear_of_some wrapped] at unclear
    rw [getLast?_chain descends_next? next] at ends
    exact ih (fun clear => unclear ⟨plain, clear⟩) ends

/-- A way that passes a function declarator passes one if asides do not count. -/
theorem isFunction_wrapped (passed : (t.chain next?).any isFunction = true) :
    (t.chain wrapped?).any isFunction = true := by
  induction t using way_induction with
  | hide t hidden =>
    have own : isFunction t = true := by
      rcases chain_of_not_isPlain hidden with alone | ⟨u, beyond, aside⟩
      · simpa [alone] using passed
      · have name := not_isFunction_of_not_isWrapper (not_isWrapper_of_isAside aside)
        simpa [beyond, name] using passed
    exact List.any_eq_true.mpr ⟨t, mem_chain_self t, own⟩
  | stop t plain next wrapped => rwa [chain_of_none wrapped, ← chain_of_none next]
  | go t u plain next wrapped ih =>
    rw [chain_of_some descends_next? next, List.any_cons, Bool.or_eq_true] at passed
    rw [chain_of_some descends_wrapped? wrapped, List.any_cons, Bool.or_eq_true]
    exact passed.imp_right ih

/-- Where the name is no aside, the extraction finds it exactly along a clear way. -/
theorem name?_eq_iff (name : ∀ n, named? t = some n → isAside n = false) :
    name? t = named? t ↔ Clear t ∨ named? t = none := by
  constructor
  · intro same
    by_cases clear : Clear t
    · exact .inl clear
    · apply Or.inr
      apply Option.eq_none_iff_forall_ne_some.mpr
      intro n found
      obtain ⟨ends, plain, -⟩ := name?_eq_some.mp (same.trans found)
      rcases getLast?_of_not_clear clear ends with aside | wrapper
      · rw [name n found] at aside
        cases aside
      · rw [plain] at wrapper
        cases wrapper
  · rintro (clear | nothing)
    · exact name?_of_clear clear
    · rw [nothing]
      apply Option.eq_none_iff_forall_ne_some.mpr
      intro n found
      obtain ⟨-, -, passed⟩ := name?_eq_some.mp found
      obtain ⟨last, ends, -⟩ := exists_getLast?_chain descends_wrapped? t
      rw [named?_eq_some.mpr ⟨isFunction_wrapped passed, ends⟩] at nothing
      cases nothing

/-! ## Without asides -/

mutual

/-- A declarator without the asides in its wrappers. -/
def bare : Tree → Tree
  | .node l cs => if isWrapper (.node l cs) then .node l (bares cs) else .node l cs

def bares : List Tree → List Tree
  | [] => []
  | t :: ts =>
    if isAside t && !t.inField "declarator" then bares ts else bare t :: bares ts

end

theorem bares_eq (ts : List Tree) :
    bares ts = (ts.filter fun t => !isAside t || t.inField "declarator").map bare := by
  induction ts with
  | nil => rfl
  | cons t ts ih =>
    rw [bares, ih, List.filter_cons]
    cases isAside t <;> cases t.inField "declarator" <;> rfl

theorem bare_of_not_isWrapper (name : isWrapper t = false) : bare t = t := by
  cases t with
  | node l cs => rw [bare, name]; rfl

@[simp] theorem label_bare (t : Tree) : (bare t).label = t.label := by
  cases t with
  | node l cs =>
    rw [bare]
    split <;> rfl

theorem kind_bare (t : Tree) : (bare t).kind = t.kind := congrArg Label.kind (label_bare t)

theorem inField_bare (name : String) (t : Tree) : (bare t).inField name = t.inField name := by
  rw [inField, inField, label_bare]

@[simp] theorem isFunction_bare (t : Tree) : isFunction (bare t) = isFunction t := by
  rw [isFunction, isFunction, kind_bare]

@[simp] theorem isWrapper_bare (t : Tree) : isWrapper (bare t) = isWrapper t := by
  rw [isWrapper, isWrapper, isFunction_bare, kind_bare]

theorem children_bare (wraps : isWrapper t = true) : (bare t).children =
    (t.children.filter fun c => !isAside c || c.inField "declarator").map bare := by
  cases t with
  | node l cs =>
    rw [bare, if_pos wraps, children, bares_eq]
    rfl

theorem field?_bare (wraps : isWrapper t = true) :
    (bare t).field? "declarator" = (t.field? "declarator").map bare := by
  have same : ∀ c : Tree, (!isAside c || c.inField "declarator") = true ∧
      (bare c).inField "declarator" = true ↔ c.inField "declarator" = true := by
    intro c
    rw [inField_bare, Bool.or_eq_true]
    exact and_iff_right_of_imp Or.inr
  rw [field?, field?, children_bare wraps, List.find?_map, List.find?_filter]
  simp only [Function.comp_apply, same, Bool.decide_eq_true]

theorem lastNamed?_bare (wraps : isWrapper t = true) (field : t.field? "declarator" = none) :
    lastNamed? (bare t) =
      (t.children.filter fun c => !isAside c && c.label.named).getLast?.map bare := by
  have outside := List.find?_eq_none.mp field
  rw [lastNamed?, children_bare wraps, List.filter_map, List.getLast?_map, List.filter_filter]
  congr 2
  apply List.filter_congr
  intro c listed
  simp [Bool.eq_false_iff.mpr (outside c listed), Bool.and_comm]

theorem next?_bare (t : Tree) : next? (bare t) = (wrapped? t).map bare := by
  rw [next?, wrapped?, isWrapper_bare]
  split
  · rename_i wraps
    rw [inner?, field?_bare wraps]
    cases field : t.field? "declarator" with
    | some u => rfl
    | none => exact lastNamed?_bare wraps field
  · rfl

theorem chain_bare (t : Tree) : (bare t).chain next? = (t.chain wrapped?).map bare := by
  induction t using chain_induction descends_wrapped? with
  | stop t next =>
    rw [chain_of_none next, chain_of_none (by rw [next?_bare, next]; rfl)]
    rfl
  | go t u next ih =>
    rw [chain_of_some descends_wrapped? next, List.map_cons, ← ih]
    exact chain_of_some descends_next? (by rw [next?_bare, next]; rfl)

/-- Without asides the extraction finds what it should. -/
theorem name?_bare (t : Tree) : name? (bare t) = (named? t).filter fun n => !isWrapper n := by
  obtain ⟨last, ends, -⟩ := exists_getLast?_chain descends_wrapped? t
  have passes :
      ((t.chain wrapped?).map bare).any isFunction = (t.chain wrapped?).any isFunction := by
    simp [List.any_map, Function.comp_def]
  rw [name?, chain_bare, named?, passes, List.getLast?_map, ends]
  cases passed : (t.chain wrapped?).any isFunction with
  | false => simp
  | true =>
    cases name : isWrapper last with
    | true => simp [name, Option.filter]
    | false => simp [name, bare_of_not_isWrapper name, Option.filter]

theorem name?_bare_of_clear (clear : Clear t) : name? (bare t) = name? t := by
  rw [name?_bare, ← name?_of_clear clear]
  cases found : name? t with
  | none => rfl
  | some n => simp [Option.filter, (name?_eq_some.mp found).2.1]

/-- Asides in a clear declarator leave its name exactly if it stays clear. -/
theorem name?_eq_iff_of_bare {e : Tree} (clear : Clear t) (found : named? t = some u)
    (name : isAside u = false) (same : bare e = bare t) : name? e = name? t ↔ Clear e := by
  have named : named? e = some u := by
    have filtered := name?_bare e
    rw [same, name?_bare_of_clear clear, name?_of_clear clear, found] at filtered
    exact (Option.filter_eq_some_iff.mp filtered.symm).1
  have precise := name?_eq_iff (t := e) fun n other => by
    rw [named] at other
    exact Option.some.inj other ▸ name
  rw [name?_of_clear clear, found, ← named, precise, named]
  simp

/-! ## Function definitions -/

/-- The declarator of a function definition. -/
def declarator? (t : Tree) : Option Tree :=
  (Query.function.match? t).bind fun m => m.capture? .functionDeclarator

theorem kind_of_declarator? {d : Tree} (captured : declarator? t = some d) :
    t.kind = "function_definition" := by
  obtain ⟨m, matched, -⟩ := Option.bind_eq_some_iff.mp captured
  rw [Query.function, Pattern.match?] at matched
  split at matched
  · assumption
  · cases matched

theorem classify?_of_declarator? {d : Tree} (captured : declarator? t = some d) (s : Setting)
    (scopes : Scopes) : s.classify? scopes t =
      ((name? d).bind (QualifiedName.ofTree? s.source)).map fun name =>
        .ofFunction name.leaf (s.owner scopes name) := by
  obtain ⟨m, matched, taken⟩ := Option.bind_eq_some_iff.mp captured
  rw [Setting.classify?_function (kind_of_declarator? captured), Setting.functionName?, matched]
  simp only [Option.bind_eq_bind, Option.bind_some, taken]

/-- The way of the extraction through a declarator ends. It ends in the name, where there is one,
exactly if the declarator is clear. Then the candidate is the one of the name and does not change
with other asides, as long as the declarator stays clear; if it does not, the name is always lost. -/
theorem finds_iff_clear {d : Tree} (captured : declarator? t = some d) :
    (∃ last, (d.chain next?).getLast? = some last ∧ next? last = none) ∧
    ((∀ n, named? d = some n → isAside n = false) →
      (name? d = named? d ↔ Clear d ∨ named? d = none)) ∧
    (Clear d → (∀ (s : Setting) scopes, s.classify? scopes t =
        ((named? d).bind (QualifiedName.ofTree? s.source)).map fun name =>
          .ofFunction name.leaf (s.owner scopes name)) ∧
      (∀ u e, declarator? u = some e → bare e = bare d → Clear e →
        ∀ (s : Setting) scopes, s.classify? scopes u = s.classify? scopes t) ∧
      ∀ n, named? d = some n → isAside n = false → ∀ e, bare e = bare d →
        (name? e = name? d ↔ Clear e)) := by
  refine ⟨exists_getLast?_chain descends_next? d, name?_eq_iff, fun clear => ⟨?_, ?_, ?_⟩⟩
  · intro s scopes
    rw [classify?_of_declarator? captured, name?_of_clear clear]
  · intro u e captured' same clear' s scopes
    rw [classify?_of_declarator? captured, classify?_of_declarator? captured',
      ← name?_bare_of_clear clear, ← name?_bare_of_clear clear', same]
  · intro n found name e same
    exact name?_eq_iff_of_bare clear found name same

/-- The declarator of `int f [[x]] (void) {}`. -/
def attributed : Tree :=
  .plain "function_declarator" 4 18 (some "declarator")
    [.plain "attributed_declarator" 4 11 (some "declarator")
      [.plain "identifier" 4 5 none [],
        .plain "attribute_declaration" 6 11 none
          [.plain "attribute" 8 9 none [.plain "identifier" 8 9 (some "name") []]]],
      .plain "parameter_list" 12 18 (some "parameters") []]

def attributedFunction : Tree :=
  .plain "function_definition" 0 21 none
    [.plain "primitive_type" 0 3 (some "type") [], attributed,
      .plain "compound_statement" 19 21 (some "body") []]

/-- The attribute is taken for the name. Without it the name is found. -/
theorem not_finds_attributed :
    let source := Utf8.encode "int f [[x]] (void) {}"
    declarator? attributedFunction = some attributed ∧
    (named? attributed).bind (·.text? source) = some "f" ∧ name? attributed ≠ named? attributed ∧
    (name? attributed).bind (·.text? source) = some "[[x]]" ∧
    (name? (bare attributed)).bind (·.text? source) = some "f" := by
  have captured : declarator? attributedFunction = some attributed := rfl
  obtain ⟨-, precise, -⟩ := finds_iff_clear captured
  have name : ∀ n, named? attributed = some n → isAside n = false := by
    intro n found
    have kind : ((named? attributed).map isAside) = some false := by decide
    rw [found] at kind
    exact Option.some.inj kind
  refine ⟨captured, by decide +kernel, fun same => ?_, by decide +kernel, by decide +kernel⟩
  rcases (precise name).mp same with clear | nothing
  · exact absurd clear (by decide)
  · have there : (named? attributed).isSome = true := by decide
    rw [nothing] at there
    cases there

end Declarator

end CodeSearch
