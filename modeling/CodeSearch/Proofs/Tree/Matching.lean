import CodeSearch.Tree.Pattern

/-! # All matches of a pattern

A pattern matches a tree in a number of ways, which have an order: that of the nodes in the
document and then that of its choices. The match that counts is the first of them.
-/

namespace CodeSearch

namespace Pattern

theorem mem_suffixes {α : Type} {as bs : List α} :
    bs ∈ suffixes as ↔ bs ≠ [] ∧ bs <:+ as := by
  induction as with
  | nil =>
    constructor
    · intro listed
      cases listed
    · rintro ⟨nonempty, suffix⟩
      exact absurd (List.suffix_nil.mp suffix) nonempty
  | cons a as ih =>
    rw [suffixes, List.mem_cons, ih, List.suffix_cons_iff]
    constructor
    · rintro (rfl | ⟨nonempty, suffix⟩)
      · exact ⟨List.cons_ne_nil a as, .inl rfl⟩
      · exact ⟨nonempty, .inr suffix⟩
    · rintro ⟨nonempty, rfl | suffix⟩
      · exact .inl rfl
      · exact .inr ⟨nonempty, suffix⟩

mutual

/-- The matches with their root at the tree. -/
def findAll : Pattern → Tree → List Match
  | node k parts, t => if t.kind = k then findParts parts t.children else []
  | named, t => if t.label.named && !t.label.error then [[]] else []
  | capture c p, t => (findAll p t).map ((c, t) :: ·)
  | oneOf ps, t => findOne ps t

/-- The matches of parts with siblings in the same order. -/
def findParts : List (String × Pattern) → List Tree → List Match
  | [], _ => [[]]
  | (field, p) :: parts, ts =>
    (suffixes ts).flatMap fun
      | [] => []
      | u :: us =>
        if u.inField field then
          (findAll p u).flatMap fun m => (findParts parts us).map (m ++ ·)
        else []

def findOne : List Pattern → Tree → List Match
  | [], _ => []
  | p :: ps, t => findAll p t ++ findOne ps t

end

/-- The first of some matches goes with the first of the others, if there are others. -/
theorem head?_flatMap_map (ms others : List Match) :
    (ms.flatMap fun m => others.map (m ++ ·)).head? =
      ms.head?.bind fun m => others.head?.map (m ++ ·) := by
  cases others with
  | nil => cases ms <;> simp
  | cons o others => cases ms <;> simp

mutual

/-- The match that counts is the first of all. -/
theorem match?_eq_head? : ∀ (p : Pattern) (t : Tree), match? p t = (findAll p t).head?
  | node k parts, t => by
    rw [match?, findAll]
    split
    · exact matchParts?_eq_head? parts t.children
    · rfl
  | named, t => by
    rw [match?, findAll]
    split <;> rfl
  | capture c p, t => by rw [match?, findAll, match?_eq_head? p t, List.head?_map]
  | oneOf ps, t => by rw [match?, findAll, matchOne?_eq_head? ps t]

theorem matchParts?_eq_head? : ∀ (parts : List (String × Pattern)) (ts : List Tree),
    matchParts? parts ts = (findParts parts ts).head?
  | [], _ => by rw [matchParts?, findParts]; rfl
  | (field, p) :: parts, ts => by
    rw [matchParts?, findParts, List.head?_flatMap]
    congr 1
    funext us
    cases us with
    | nil => rfl
    | cons u us =>
      dsimp only
      split
      · rw [head?_flatMap_map, match?_eq_head? p u, matchParts?_eq_head? parts us]
      · rfl

theorem matchOne?_eq_head? : ∀ (ps : List Pattern) (t : Tree),
    matchOne? ps t = (findOne ps t).head?
  | [], _ => by rw [matchOne?, findOne]; rfl
  | p :: ps, t => by
    rw [matchOne?, findOne, match?_eq_head? p t, List.head?_append, matchOne?_eq_head? ps t]
    cases (findAll p t).head? <;> rfl

end

theorem mem_findAll_node {k : String} {parts : List (String × Pattern)} {t : Tree} {m : Match} :
    m ∈ findAll (node k parts) t ↔ t.kind = k ∧ m ∈ findParts parts t.children := by
  rw [findAll]
  split <;> simp [*]

theorem mem_findParts {field : String} {p : Pattern} {parts : List (String × Pattern)}
    {ts : List Tree} {m : Match} :
    m ∈ findParts ((field, p) :: parts) ts ↔ ∃ before u after, ts = before ++ u :: after ∧
      u.inField field = true ∧ ∃ m₁ ∈ findAll p u, ∃ m₂ ∈ findParts parts after, m = m₁ ++ m₂ := by
  rw [findParts, List.mem_flatMap]
  constructor
  · rintro ⟨us, suffix, listed⟩
    obtain ⟨nonempty, before, rfl⟩ := mem_suffixes.mp suffix
    cases us with
    | nil => cases listed
    | cons u after =>
      dsimp only at listed
      split at listed
      · rename_i inside
        obtain ⟨m₁, first, rest⟩ := List.mem_flatMap.mp listed
        obtain ⟨m₂, second, rfl⟩ := List.mem_map.mp rest
        exact ⟨before, u, after, rfl, inside, m₁, first, m₂, second, rfl⟩
      · cases listed
  · rintro ⟨before, u, after, rfl, inside, m₁, first, m₂, second, rfl⟩
    refine ⟨u :: after, mem_suffixes.mpr ⟨List.cons_ne_nil u after, before, rfl⟩, ?_⟩
    dsimp only
    rw [if_pos inside]
    exact List.mem_flatMap.mpr ⟨m₁, first, List.mem_map_of_mem second⟩

/-- A part on its own may be any child in the field. -/
theorem mem_findParts_singleton {field : String} {p : Pattern} {ts : List Tree} {m : Match} :
    m ∈ findParts [(field, p)] ts ↔ ∃ u ∈ ts, u.inField field = true ∧ m ∈ findAll p u := by
  rw [mem_findParts]
  constructor
  · rintro ⟨before, u, after, rfl, inside, m₁, first, m₂, second, rfl⟩
    rw [findParts, List.mem_singleton] at second
    rw [second, List.append_nil]
    exact ⟨u, List.mem_append_right before List.mem_cons_self, inside, first⟩
  · rintro ⟨u, listed, inside, first⟩
    obtain ⟨before, after, cut⟩ := List.append_of_mem listed
    refine ⟨before, u, after, cut, inside, m, first, [], ?_, (List.append_nil m).symm⟩
    rw [findParts]
    exact List.mem_singleton_self _

theorem mem_findOne {ps : List Pattern} {t : Tree} {m : Match} :
    m ∈ findOne ps t ↔ ∃ p ∈ ps, m ∈ findAll p t := by
  induction ps with
  | nil => simp [findOne]
  | cons p ps ih => simp only [findOne, List.mem_append, ih, List.mem_cons, exists_eq_or_imp]

end Pattern

end CodeSearch
