import CodeSearch.Extraction.Candidate
import CodeSearch.Proofs.Tree.Matching
import CodeSearch.Proofs.Tree.Nesting

/-! # Arrays set to lists of values

An array has as many dimensions as array declarators around its name, and may stand behind a
pointer. The query lists three of these shapes, and only the first match of it counts.
-/

namespace CodeSearch

namespace Query

open Pattern

variable {path : List String} {t u i : Tree}

/-- The identifiers behind declarators of the given kinds, the outermost first. -/
def behind : List String → Tree → List Tree
  | [], t => if t.kind = "identifier" then [t] else []
  | kind :: path, t =>
    if t.kind = kind then (t.children.filter (·.inField "declarator")).flatMap (behind path) else []

/-- The declarators around the name of an array, with or without a pointer before them. -/
def shape (pointer : Bool) (dimensions : Nat) : List String :=
  (if pointer then ["pointer_declarator"] else []) ++
    List.replicate dimensions "array_declarator"

/-- The shapes that the query lists. -/
def shapes : List (List String) := [shape false 1, shape false 2, shape true 1]

theorem mem_shapes :
    path ∈ shapes ↔ ∃ pointer n, (n = 1 ∨ n = 2 ∧ pointer = false) ∧ path = shape pointer n := by
  simp only [shapes, List.mem_cons, List.not_mem_nil, or_false]
  constructor
  · rintro (rfl | rfl | rfl)
    · exact ⟨false, 1, .inl rfl, rfl⟩
    · exact ⟨false, 2, .inr ⟨rfl, rfl⟩, rfl⟩
    · exact ⟨true, 1, .inl rfl, rfl⟩
  · rintro ⟨pointer, n, rfl | ⟨rfl, rfl⟩, rfl⟩
    · cases pointer with
      | false => exact .inl rfl
      | true => exact .inr (.inr rfl)
    · exact .inr (.inl rfl)

/-- The pattern of an array name behind declarators. -/
def wrapped (path : List String) : Pattern := path.foldr wrapping arrayName

theorem array_eq : array = wrapping "declaration" (.node "init_declarator"
    [("declarator", .oneOf (shapes.map wrapped)), ("value", any "initializer_list")]) := rfl

theorem mem_findAll_any {kind : String} {m : Match} :
    m ∈ findAll (any kind) t ↔ t.kind = kind ∧ m = [] := by
  rw [any, mem_findAll_node, findParts, List.mem_singleton]

theorem mem_findAll_wrapping {kind : String} {p : Pattern} {m : Match} :
    m ∈ findAll (wrapping kind p) t ↔
      t.kind = kind ∧ ∃ u ∈ t.children, u.inField "declarator" = true ∧ m ∈ findAll p u := by
  rw [wrapping, mem_findAll_node, mem_findParts_singleton]

theorem mem_behind_nil : i ∈ behind [] t ↔ t.kind = "identifier" ∧ i = t := by
  rw [behind]
  split <;> simp [*]

theorem mem_behind_cons {kind : String} : i ∈ behind (kind :: path) t ↔
    t.kind = kind ∧ ∃ u ∈ t.children, u.inField "declarator" = true ∧ i ∈ behind path u := by
  rw [behind]
  split <;> simp [*, and_assoc]

/-- A pattern of wrapped names finds the identifiers behind the declarators. -/
theorem mem_findAll_wrapped {m : Match} :
    m ∈ findAll (wrapped path) t ↔ ∃ i ∈ behind path t, m = [(.arrayName, i)] := by
  induction path generalizing t with
  | nil =>
    change m ∈ findAll (.capture .arrayName (any "identifier")) t ↔ _
    simp only [findAll, List.mem_map, mem_findAll_any, mem_behind_nil]
    constructor
    · rintro ⟨rest, ⟨kind, rfl⟩, rfl⟩
      exact ⟨t, ⟨kind, rfl⟩, rfl⟩
    · rintro ⟨i, ⟨kind, rfl⟩, rfl⟩
      exact ⟨[], ⟨kind, rfl⟩, rfl⟩
  | cons kind path ih =>
    change m ∈ findAll (wrapping kind (wrapped path)) t ↔ _
    simp only [mem_findAll_wrapping, mem_behind_cons, ih]
    constructor
    · rintro ⟨same, u, listed, inside, i, found, rfl⟩
      exact ⟨i, ⟨same, u, listed, inside, found⟩, rfl⟩
    · rintro ⟨i, ⟨same, u, listed, inside, found⟩, rfl⟩
      exact ⟨same, u, listed, inside, i, found, rfl⟩

/-! ## Declarations -/

def isValues (t : Tree) : Bool := t.inField "value" && t.kind = "initializer_list"

/-- The identifiers of arrays of a shape that a declaration sets to lists of values. -/
def initialised (path : List String) (t : Tree) : List Tree :=
  (t.children.filter fun d => d.inField "declarator" && d.kind = "init_declarator").flatMap fun d =>
    if d.children.any isValues then
      (d.children.filter (·.inField "declarator")).flatMap (behind path)
    else []

theorem mem_initialised : i ∈ initialised path t ↔ ∃ d ∈ t.children,
    d.inField "declarator" = true ∧ d.kind = "init_declarator" ∧
      (∃ v ∈ d.children, isValues v = true) ∧
      ∃ u ∈ d.children, u.inField "declarator" = true ∧ i ∈ behind path u := by
  simp only [initialised, List.mem_flatMap, List.mem_filter, Bool.and_eq_true, decide_eq_true_eq]
  constructor
  · rintro ⟨d, ⟨listed, inside, kind⟩, found⟩
    split at found
    · rename_i values
      obtain ⟨u, there, found⟩ := List.mem_flatMap.mp found
      obtain ⟨among, inside'⟩ := List.mem_filter.mp there
      exact ⟨d, listed, inside, kind, List.any_eq_true.mp values, u, among, inside', found⟩
    · cases found
  · rintro ⟨d, listed, inside, kind, values, u, among, inside', found⟩
    refine ⟨d, ⟨listed, inside, kind⟩, ?_⟩
    rw [if_pos (List.any_eq_true.mpr values)]
    exact List.mem_flatMap.mpr ⟨u, List.mem_filter.mpr ⟨among, inside'⟩, found⟩

/-- The identifiers that the query finds in a declaration, in their order. -/
def taken (t : Tree) : List Tree := (findAll array t).filterMap (·.capture? .arrayName)

theorem mem_findAll_array {m : Match} : m ∈ findAll array t ↔ t.kind = "declaration" ∧
    ∃ d ∈ t.children, d.inField "declarator" = true ∧ d.kind = "init_declarator" ∧
      ∃ before u after, d.children = before ++ u :: after ∧ u.inField "declarator" = true ∧
        (∃ v ∈ after, isValues v = true) ∧
        ∃ path ∈ shapes, ∃ i ∈ behind path u, m = [(.arrayName, i)] := by
  have values : ∀ {ts : List Tree} {m : Match},
      m ∈ findParts [("value", any "initializer_list")] ts ↔
        m = [] ∧ ∃ v ∈ ts, isValues v = true := by
    intro ts m
    simp only [mem_findParts_singleton, mem_findAll_any, isValues, Bool.and_eq_true,
      decide_eq_true_eq]
    constructor
    · rintro ⟨v, listed, inside, kind, rfl⟩
      exact ⟨rfl, v, listed, inside, kind⟩
    · rintro ⟨rfl, v, listed, inside, kind⟩
      exact ⟨v, listed, inside, kind, rfl⟩
  have names : ∀ {u : Tree} {m : Match}, m ∈ findAll (.oneOf (shapes.map wrapped)) u ↔
      ∃ path ∈ shapes, ∃ i ∈ behind path u, m = [(.arrayName, i)] := by
    intro u m
    rw [findAll, mem_findOne]
    constructor
    · rintro ⟨p, listed, found⟩
      obtain ⟨path, short, rfl⟩ := List.mem_map.mp listed
      exact ⟨path, short, mem_findAll_wrapped.mp found⟩
    · rintro ⟨path, short, found⟩
      exact ⟨wrapped path, List.mem_map_of_mem short, mem_findAll_wrapped.mpr found⟩
  have declarators : ∀ {d : Tree}, m ∈ findAll (.node "init_declarator"
        [("declarator", .oneOf (shapes.map wrapped)), ("value", any "initializer_list")]) d ↔
      d.kind = "init_declarator" ∧
        ∃ before u after, d.children = before ++ u :: after ∧ u.inField "declarator" = true ∧
          (∃ v ∈ after, isValues v = true) ∧
          ∃ path ∈ shapes, ∃ i ∈ behind path u, m = [(.arrayName, i)] := by
    intro d
    rw [mem_findAll_node, mem_findParts]
    apply and_congr_right
    intro _
    constructor
    · rintro ⟨before, u, after, cut, inside, m₁, first, m₂, second, rfl⟩
      obtain ⟨rfl, listed⟩ := values.mp second
      rw [List.append_nil]
      exact ⟨before, u, after, cut, inside, listed, names.mp first⟩
    · rintro ⟨before, u, after, cut, inside, listed, found⟩
      exact ⟨before, u, after, cut, inside, m, names.mpr found, [], values.mpr ⟨rfl, listed⟩,
        (List.append_nil m).symm⟩
  rw [array_eq, mem_findAll_wrapping]
  simp only [declarators]

theorem mem_taken : i ∈ taken t ↔ t.kind = "declaration" ∧
    ∃ d ∈ t.children, d.inField "declarator" = true ∧ d.kind = "init_declarator" ∧
      ∃ before u after, d.children = before ++ u :: after ∧ u.inField "declarator" = true ∧
        (∃ v ∈ after, isValues v = true) ∧ ∃ path ∈ shapes, i ∈ behind path u := by
  rw [taken, List.mem_filterMap]
  constructor
  · rintro ⟨m, found, captured⟩
    obtain ⟨kind, d, listed, inside, kind', before, u, after, cut, inside', values, path, short, j,
      there, rfl⟩ := mem_findAll_array.mp found
    obtain rfl : j = i := Option.some.inj captured
    exact ⟨kind, d, listed, inside, kind', before, u, after, cut, inside', values, path, short,
      there⟩
  · rintro ⟨kind, d, listed, inside, kind', before, u, after, cut, inside', values, path, short,
      there⟩
    exact ⟨[(.arrayName, i)], mem_findAll_array.mpr ⟨kind, d, listed, inside, kind', before, u,
      after, cut, inside', values, path, short, i, there, rfl⟩, rfl⟩

/-- The identifier that the query takes out is the first that it finds. -/
theorem head?_taken (t : Tree) :
    (taken t).head? = (array.match? t).bind (·.capture? .arrayName) := by
  rw [match?_eq_head?, taken]
  cases found : findAll array t with
  | nil => rfl
  | cons m ms =>
    obtain ⟨-, -, -, -, -, -, -, -, -, -, -, -, -, i, -, rfl⟩ :=
      mem_findAll_array.mp (found ▸ List.mem_cons_self : m ∈ findAll array t)
    rfl

/-- What the query finds is set to a list of values. -/
theorem exists_shape_of_mem_taken (found : i ∈ taken t) :
    ∃ pointer n, (n = 1 ∨ n = 2 ∧ pointer = false) ∧ i ∈ initialised (shape pointer n) t := by
  obtain ⟨-, d, listed, inside, kind, before, u, after, cut, inside', ⟨v, later, values⟩, path,
    short, there⟩ := mem_taken.mp found
  obtain ⟨pointer, n, few, rfl⟩ := mem_shapes.mp short
  refine ⟨pointer, n, few, mem_initialised.mpr ⟨d, listed, inside, kind, ⟨v, ?_, values⟩, u, ?_,
    inside', there⟩⟩
  · rw [cut]
    exact List.mem_append_right before (List.mem_cons_of_mem u later)
  · rw [cut]
    exact List.mem_append_right before List.mem_cons_self

/-- In each declarator the values come after what they are for, as they do in a text. -/
def Ordered (t : Tree) : Prop := ∀ d ∈ t.children, d.kind = "init_declarator" →
  d.children.Pairwise fun a b => isValues a = true → b.inField "declarator" = false

theorem mem_taken_of_ordered (kind : t.kind = "declaration") (ordered : Ordered t)
    (short : path ∈ shapes) (found : i ∈ initialised path t) : i ∈ taken t := by
  obtain ⟨d, listed, inside, kind', ⟨v, among, values⟩, u, among', inside', there⟩ :=
    mem_initialised.mp found
  obtain ⟨before, after, cut⟩ := List.append_of_mem among'
  refine mem_taken.mpr ⟨kind, d, listed, inside, kind', before, u, after, cut, inside',
    ⟨v, ?_, values⟩, path, short, there⟩
  have order := ordered d listed kind'
  rw [cut] at among order
  rcases List.mem_append.mp among with earlier | rest
  · have outside := (List.pairwise_append.mp order).2.2 v earlier u List.mem_cons_self values
    rw [inside'] at outside
    cases outside
  · rcases List.mem_cons.mp rest with rfl | later
    · simp only [isValues, Tree.inField, Bool.and_eq_true, decide_eq_true_eq] at values inside'
      rw [values.1] at inside'
      exact absurd inside' (by decide)
    · exact later

end Query

namespace Setting

open Query

variable {s : Setting} {t : Tree}

/-- An array of any shape that a declaration sets to a list of values, by its name. -/
def SetsArray (s : Setting) (t : Tree) (name : String) : Prop :=
  ∃ pointer n i, 1 ≤ n ∧ i ∈ initialised (shape pointer n) t ∧ i.trimmed? s.source = some name

/-- A declaration becomes a candidate if it sets an array, and then the candidate goes by the name
of such an array. -/
def Recognises (s : Setting) (t : Tree) : Prop :=
  (∀ c, s.array? t = some c → ∃ name, c = .ofArray name ∧ s.SetsArray t name) ∧
  ((∃ name, s.SetsArray t name) → (s.array? t).isSome = true)

theorem array?_eq (s : Setting) (t : Tree) : s.array? t =
    ((taken t).head?.bind fun i => i.trimmed? s.source).map Candidate.ofArray := by
  rw [array?, captured?, head?_taken, Option.bind_assoc]

/-- A candidate always goes by the name of an array that the declaration sets. -/
theorem setsArray_of_array? {c : Candidate} (found : s.array? t = some c) :
    ∃ name, c = .ofArray name ∧ s.SetsArray t name := by
  rw [array?_eq] at found
  obtain ⟨name, held, rfl⟩ := Option.map_eq_some_iff.mp found
  obtain ⟨i, first, text⟩ := Option.bind_eq_some_iff.mp held
  obtain ⟨pointer, n, few, there⟩ := exists_shape_of_mem_taken (List.mem_of_head? first)
  exact ⟨name, rfl, pointer, n, i, by omega, there, text⟩

/-- A candidate of a declaration goes by the name of an array that is set. A declaration that sets
an array becomes one exactly if the first identifier that the query finds has a text. Where values
come last and all identifiers have a text, that is exactly if one of the arrays has one dimension,
or two and no pointer before them. -/
theorem recognises_iff (kind : t.kind = "declaration") :
    (∀ scopes, s.classify? scopes t = s.array? t) ∧
    (∀ c, s.array? t = some c → ∃ name, c = .ofArray name ∧ s.SetsArray t name) ∧
    (s.Recognises t ↔ ((∃ name, s.SetsArray t name) →
      ∃ i, (taken t).head? = some i ∧ (i.trimmed? s.source).isSome = true)) ∧
    (Ordered t →
      (∀ pointer n, ∀ i ∈ initialised (shape pointer n) t, (i.trimmed? s.source).isSome = true) →
      (s.Recognises t ↔ ((∃ pointer n, 1 ≤ n ∧ initialised (shape pointer n) t ≠ []) →
        ∃ pointer n, (n = 1 ∨ n = 2 ∧ pointer = false) ∧
          initialised (shape pointer n) t ≠ []))) := by
  have isSome_iff : (s.array? t).isSome = true ↔
      ∃ i, (taken t).head? = some i ∧ (i.trimmed? s.source).isSome = true := by
    rw [array?_eq, Option.isSome_map, Option.isSome_bind, Option.any_eq_true]
  have precise : s.Recognises t ↔ ((∃ name, s.SetsArray t name) →
      ∃ i, (taken t).head? = some i ∧ (i.trimmed? s.source).isSome = true) := by
    rw [← isSome_iff]
    exact and_iff_right fun c => setsArray_of_array?
  refine ⟨fun scopes => by simp [classify?, kind], fun c => setsArray_of_array?, precise, ?_⟩
  intro ordered spelled
  have some_iff : (∃ name, s.SetsArray t name) ↔
      ∃ pointer n, 1 ≤ n ∧ initialised (shape pointer n) t ≠ [] := by
    constructor
    · rintro ⟨name, pointer, n, i, positive, there, -⟩
      exact ⟨pointer, n, positive, List.ne_nil_of_mem there⟩
    · rintro ⟨pointer, n, positive, nonempty⟩
      obtain ⟨i, there⟩ := List.exists_mem_of_ne_nil _ nonempty
      obtain ⟨name, text⟩ := Option.isSome_iff_exists.mp (spelled pointer n i there)
      exact ⟨name, pointer, n, i, positive, there, text⟩
  have first_iff : (∃ i, (taken t).head? = some i ∧ (i.trimmed? s.source).isSome = true) ↔
      ∃ pointer n, (n = 1 ∨ n = 2 ∧ pointer = false) ∧ initialised (shape pointer n) t ≠ [] := by
    constructor
    · rintro ⟨i, first, -⟩
      obtain ⟨pointer, n, few, there⟩ := exists_shape_of_mem_taken (List.mem_of_head? first)
      exact ⟨pointer, n, few, List.ne_nil_of_mem there⟩
    · rintro ⟨pointer, n, few, nonempty⟩
      obtain ⟨i, there⟩ := List.exists_mem_of_ne_nil _ nonempty
      have found := mem_taken_of_ordered kind ordered (mem_shapes.mpr ⟨_, _, few, rfl⟩) there
      obtain ⟨j, rest, cut⟩ := List.exists_cons_of_ne_nil (List.ne_nil_of_mem found)
      have first : (taken t).head? = some j := by
        rw [cut]
        rfl
      obtain ⟨pointer, n, -, there⟩ := exists_shape_of_mem_taken (List.mem_of_head? first)
      exact ⟨j, first, spelled pointer n j there⟩
  rw [precise, some_iff, first_iff]

/-- The tree of `int a[2][3][4] = {0};`. -/
def cube : Tree :=
  .plain "declaration" 0 21 none
    [.plain "primitive_type" 0 3 (some "type") [],
      .plain "init_declarator" 4 20 (some "declarator")
        [.plain "array_declarator" 4 14 (some "declarator")
          [.plain "array_declarator" 4 11 (some "declarator")
            [.plain "array_declarator" 4 8 (some "declarator")
              [.plain "identifier" 4 5 (some "declarator") [],
                .plain "number_literal" 6 7 (some "size") []],
              .plain "number_literal" 9 10 (some "size") []],
            .plain "number_literal" 12 13 (some "size") []],
          .plain "initializer_list" 17 20 (some "value") [.plain "number_literal" 18 19 none []]]]

/-- An array of three dimensions is set, and there is no candidate. -/
theorem not_recognises_cube :
    let s : Setting := ⟨.standard, .c, Utf8.encode "int a[2][3][4] = {0};"⟩
    cube.kind = "declaration" ∧ s.SetsArray cube "a" ∧ s.array? cube = none ∧
      ¬ s.Recognises cube := by
  intro s
  have named : s.SetsArray cube "a" :=
    ⟨false, 3, .plain "identifier" 4 5 (some "declarator") [], by decide, List.mem_singleton_self _,
      by decide +kernel⟩
  obtain ⟨-, -, precise, -⟩ := recognises_iff (s := s) (t := cube) rfl
  refine ⟨rfl, named, rfl, fun recognises => ?_⟩
  obtain ⟨i, first, -⟩ := precise.mp recognises ⟨"a", named⟩
  have nothing : taken cube = [] := rfl
  rw [nothing] at first
  cases first

end Setting

end CodeSearch
