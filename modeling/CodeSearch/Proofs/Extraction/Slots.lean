import Mathlib.Data.List.Forall2
import CodeSearch.Proofs.Extraction.Attribution
import CodeSearch.Proofs.Name.Qualified

/-! # Names by kind

The kind of a construct decides which names it has. A function has one more for its scope, and where
that stands is up to the language and the attribution. Nothing else is: by another attribution a pass
keeps the same constructs with the same names, and only these may have moved.
-/

namespace CodeSearch

def Names.Has (names : Names) (name : String) : Prop :=
  some name ∈ [names.functionName, names.className, names.structName, names.arrayName]

/-- Which names a construct of a kind has in a language. -/
structure Slots (l : Language) (a : Attribution) (kind : Kind) (names : Names) : Prop where
  comment : kind = .comment → names = Names.empty
  array : kind = .arrayInit → ∃ name, names = { Names.empty with arrayName := some name }
  classType : kind = .classType → ∃ name, names = { Names.empty with className := some name }
  structType : kind = .structType → ∃ name, names = { Names.empty with structName := some name }
  function : kind.isFunction = true → ∃ name, names.functionName = some name
  arrayless : kind.isFunction = true → names.arrayName = none
  /-- No scope is both a class and a struct. -/
  single : names.className = none ∨ names.structName = none
  testCase : kind = .testCase ↔ ∃ name, names.functionName = some name ∧ isTestName name = true
  nonempty : ∀ name, names.Has name → name ≠ ""
  /-- There are no classes in C. -/
  classless : l = .c → kind ≠ .classType ∧ names.className = none
  /-- By the language alone the scopes of C++ are classes. -/
  structless : l = .cpp → a = .byLanguage → kind.isFunction = true → names.structName = none

namespace Chunk

/-- Equal chunks, but for the place of the scope of a function. -/
structure Reowned (c d : Chunk) : Prop where
  same : { d with names := c.names } = c
  others : c.kind.isFunction = false → d.names = c.names
  functionName : d.names.functionName = c.names.functionName
  arrayName : d.names.arrayName = c.names.arrayName
  scope : d.names.className.or d.names.structName = c.names.className.or c.names.structName

end Chunk

/-- A scope with a name, which in C is a struct. -/
structure Scope.Sound (l : Language) (f : Scope) : Prop where
  named : f.name ≠ ""
  classless : l = .c → f.kind = .structType

/-! ## Candidates -/

namespace Candidate

variable {l : Language} {a : Attribution} {name : String} {owner : Option (ScopeKind × String)}

theorem slots_ofComment : Slots l a ofComment.kind ofComment.names := by
  constructor <;> simp [ofComment, Names.empty, Kind.isFunction, Names.Has]

theorem slots_ofArray (nonempty : name ≠ "") :
    Slots l a (ofArray name).kind (ofArray name).names := by
  constructor <;> simp [ofArray, Names.empty, Kind.isFunction, Names.Has, nonempty]

theorem slots_ofClass (nonempty : name ≠ "") (classes : l ≠ .c) :
    Slots l a (ofClass name).kind (ofClass name).names := by
  constructor <;> simp [ofClass, Names.empty, Kind.isFunction, Names.Has, nonempty, classes]

theorem slots_ofStruct (nonempty : name ≠ "") :
    Slots l a (ofStruct name).kind (ofStruct name).names := by
  constructor <;> simp [ofStruct, Names.empty, Kind.isFunction, Names.Has, nonempty]

theorem isFunction_ofFunction (name : String) (owner : Option (ScopeKind × String)) :
    (ofFunction name owner).kind.isFunction = true := by
  cases test : isTestName name <;> simp [ofFunction, test, Kind.isFunction]

theorem kind_ofFunction (name : String) (owner : Option (ScopeKind × String)) :
    (ofFunction name owner).kind = .testCase ↔ isTestName name = true := by
  cases test : isTestName name <;> simp [ofFunction, test]

/-- A function has its own name, and that of its owner where the kind of the owner says. -/
theorem slots_ofFunction (nonempty : name ≠ "") (named : ∀ o ∈ owner, o.2 ≠ "")
    (classless : l = .c → ∀ o ∈ owner, o.1 = .structType)
    (structless : l = .cpp → a = .byLanguage → ∀ o ∈ owner, o.1 = .classType) :
    Slots l a (ofFunction name owner).kind (ofFunction name owner).names := by
  obtain ⟨own, single, -⟩ := Setting.names_ofFunction name owner
  have other (kind : Kind) (no : kind.isFunction = false) : (ofFunction name owner).kind ≠ kind := by
    rintro rfl
    rw [isFunction_ofFunction] at no
    cases no
  constructor
  case comment => exact fun same => absurd same (other _ rfl)
  case array => exact fun same => absurd same (other _ rfl)
  case classType => exact fun same => absurd same (other _ rfl)
  case structType => exact fun same => absurd same (other _ rfl)
  case function => exact fun _ => ⟨name, own⟩
  case single => exact single
  case testCase => simp only [kind_ofFunction, own, Option.some.injEq, exists_eq_left']
  case arrayless => rcases owner with _ | ⟨_ | _, _⟩ <;> exact fun _ => rfl
  case nonempty =>
    rcases owner with _ | ⟨_ | _, scope⟩ <;>
      simp_all [ofFunction, Names.empty, Names.Has]
  case classless =>
    intro c
    refine ⟨other _ rfl, ?_⟩
    rcases owner with _ | ⟨_ | _, scope⟩
    · rfl
    · cases classless c _ rfl
    · rfl
  case structless =>
    intro cpp language _
    rcases owner with _ | ⟨_ | _, scope⟩
    · rfl
    · rfl
    · cases structless cpp language _ rfl

end Candidate

namespace Setting

variable {s : Setting} {scopes : Scopes} {u : Tree} {c : Candidate} {f : Scope} {name : String}

theorem captured?_ne_empty {p : Pattern} {capture : Capture}
    (captured : s.captured? p capture u = some name) : name ≠ "" := by
  obtain ⟨m, -, captured⟩ := Option.bind_eq_some_iff.mp captured
  obtain ⟨v, -, trimmed⟩ := Option.bind_eq_some_iff.mp captured
  obtain ⟨text, -, kept⟩ := Option.bind_eq_some_iff.mp trimmed
  obtain ⟨nonempty, rfl⟩ := Text.nonempty?_eq_some.mp kept
  exact nonempty

theorem functionName?_ne_empty {q : QualifiedName} (named : s.functionName? u = some q) :
    q.leaf ≠ "" ∧ ∀ scope, q.scope = some scope → scope ≠ "" := by
  simp only [functionName?, Option.bind_eq_bind, Option.bind_eq_some_iff] at named
  obtain ⟨m, -, d, -, n, -, read⟩ := named
  exact QualifiedName.ne_empty_of_ofTree? read

/-- In C the scopes of functions are structs. -/
theorem scopeKind_of_c (c : s.language = .c) {known : Option ScopeKind}
    (sound : ∀ kind ∈ known, kind = .structType) : s.scopeKind known = .structType := by
  have language : s.languageScope = .structType := by rw [languageScope, c]; rfl
  rw [scopeKind]
  split
  · exact language
  · cases known with
    | none => exact language
    | some kind => exact sound kind rfl

theorem scopeKind_of_cpp (cpp : s.language = .cpp) (by_ : s.options.attribution = .byLanguage)
    (known : Option ScopeKind) : s.scopeKind known = .classType := by
  rw [scopeKind, by_, languageScope, cpp]
  rfl

/-- The owner of a function is in its name or is a scope around it. -/
theorem owner_cases {q : QualifiedName} {o : ScopeKind × String} (owned : s.owner scopes q = some o) :
    (o.1 = s.scopeKind none ∧ q.scope = some o.2) ∨
      ∃ f ∈ scopes, o.1 = s.scopeKind (some f.kind) ∧ o.2 = f.name := by
  rw [owner] at owned
  split at owned
  · rename_i scope own
    obtain rfl := Option.some.inj owned
    exact .inl ⟨rfl, own⟩
  · obtain ⟨f, inner, rfl⟩ := Option.map_eq_some_iff.mp owned
    exact .inr ⟨f, List.mem_of_head? inner, rfl, rfl⟩

/-- A candidate has its names in their slots if the scopes around it are sound. -/
theorem slots_of_classify? (sound : ∀ f ∈ scopes, f.Sound s.language)
    (found : s.classify? scopes u = some c) :
    Slots s.language s.options.attribution c.kind c.names := by
  by_cases function : u.kind = "function_definition"
  · rw [classify?_function function] at found
    obtain ⟨q, named, rfl⟩ := Option.map_eq_some_iff.mp found
    obtain ⟨nonempty, qualified⟩ := functionName?_ne_empty named
    apply Candidate.slots_ofFunction nonempty
    · intro o owned
      rcases owner_cases owned with ⟨-, own⟩ | ⟨f, around, -, name⟩
      · exact qualified o.2 own
      · exact name ▸ (sound f around).named
    · intro c o owned
      rcases owner_cases owned with ⟨kind, -⟩ | ⟨f, around, kind, -⟩
      · exact kind.trans (scopeKind_of_c c nofun)
      · refine kind.trans (scopeKind_of_c c ?_)
        rintro _ ⟨⟩
        exact (sound f around).classless c
    · intro cpp language o owned
      rcases owner_cases owned with ⟨kind, -⟩ | ⟨f, -, kind, -⟩
      · exact kind.trans (scopeKind_of_cpp cpp language _)
      · exact kind.trans (scopeKind_of_cpp cpp language _)
  · rw [classify?, if_neg function] at found
    split_ifs at found
    · rw [classType?] at found
      split_ifs at found with classes
      obtain ⟨name, captured, rfl⟩ := Option.map_eq_some_iff.mp found
      refine Candidate.slots_ofClass (captured?_ne_empty captured) fun c => ?_
      rw [c] at classes
      cases classes
    · obtain ⟨name, captured, rfl⟩ := Option.map_eq_some_iff.mp found
      exact Candidate.slots_ofStruct (captured?_ne_empty captured)
    · obtain ⟨name, captured, rfl⟩ := Option.map_eq_some_iff.mp found
      exact Candidate.slots_ofStruct (captured?_ne_empty captured)
    · obtain ⟨name, captured, rfl⟩ := Option.map_eq_some_iff.mp found
      exact Candidate.slots_ofArray (captured?_ne_empty captured)
    · obtain ⟨m, -, rfl⟩ := Option.map_eq_some_iff.mp found
      exact Candidate.slots_ofComment

/-- The scope that a node opens is sound. -/
theorem sound_of_scope? (opens : s.scope? u = some f) : f.Sound s.language := by
  rw [scope?_eq []] at opens
  obtain ⟨c, found, opens⟩ := Option.bind_eq_some_iff.mp opens
  have slots := slots_of_classify? (fun f none_ => absurd none_ List.not_mem_nil) found
  rw [Candidate.scope?] at opens
  split at opens
  · rename_i kind
    obtain ⟨name, there, rfl⟩ := Option.map_eq_some_iff.mp opens
    constructor
    · exact slots.nonempty name (by simp [Names.Has, there])
    · exact fun c => absurd kind (slots.classless c).1
  · obtain ⟨name, there, rfl⟩ := Option.map_eq_some_iff.mp opens
    constructor
    · exact slots.nonempty name (by simp [Names.Has, there])
    · exact fun _ => rfl
  · cases opens

end Setting

namespace Pass

variable {s : Setting} {u : Tree} {p : Pass} {nodes : List Tree}

/-- The open scopes are sound, and what is kept has its names in their slots. -/
structure Slotted (s : Setting) (p : Pass) : Prop where
  scopes : ∀ f ∈ p.scopes, f.Sound s.language
  kept : ∀ f ∈ p.kept, Slots s.language s.options.attribution f.kind f.candidate.names

theorem Slotted.visit (slotted : Slotted s p) (u : Tree) : Slotted s (visit s p u) := by
  have sound : ∀ f ∈ p.scopes.leave u.span.start, f.Sound s.language :=
    fun f listed => slotted.scopes f (List.dropWhile_subset _ listed)
  constructor
  · intro f listed
    rw [visit_scopes] at listed
    rcases List.mem_append.mp listed with opened | before
    · exact Setting.sound_of_scope? (Option.mem_toList.mp opened)
    · exact sound f before
  · rcases visit_kept_cases (s := s) p u with same | ⟨c, found, kept, -⟩
    · rw [same]
      exact slotted.kept
    · rw [kept]
      exact List.forall_mem_cons.mpr ⟨Setting.slots_of_classify? sound found, slotted.kept⟩

theorem slotted_after (nodes : List Tree) : Slotted s (after s nodes) :=
  after_induction ⟨nofun, nofun⟩ (fun _ u slotted => slotted.visit u) nodes

end Pass

/-! ## Another attribution -/

/-- The setting with another attribution of scopes. -/
def Setting.attributing (s : Setting) (a : Attribution) : Setting :=
  { s with options := { s.options with attribution := a } }

/-- The names of a construct, with the scope of a function in one place. -/
def Names.merged (kind : Kind) (names : Names) : Names :=
  if kind.isFunction then
    { names with className := names.className.or names.structName, structName := none }
  else names

def Candidate.merged (c : Candidate) : Candidate := { c with names := c.names.merged c.kind }

def Found.merged (f : Found) : Found := ⟨f.node, f.candidate.merged⟩

def Chunk.merged (c : Chunk) : Chunk := { c with names := c.names.merged c.kind }

namespace Candidate

theorem merged_ofFunction {name : String} {owner owner' : Option (ScopeKind × String)}
    (same : owner.map (·.2) = owner'.map (·.2)) :
    (ofFunction name owner).merged = (ofFunction name owner').merged := by
  rw [merged, merged, Names.merged, Names.merged, if_pos (isFunction_ofFunction ..),
    if_pos (isFunction_ofFunction ..)]
  rcases owner with _ | ⟨_ | _, _⟩ <;> rcases owner' with _ | ⟨_ | _, _⟩ <;>
    simp_all [ofFunction, Names.empty]

end Candidate

namespace Setting

variable {s : Setting} {scopes : Scopes} {u : Tree} {a : Attribution}

/-- A candidate is the same by another attribution, but for the place of a scope. -/
theorem classify?_attributing (s : Setting) (a : Attribution) (scopes : Scopes) (u : Tree) :
    ((s.attributing a).classify? scopes u).map Candidate.merged =
      (s.classify? scopes u).map Candidate.merged := by
  by_cases function : u.kind = "function_definition"
  · rw [classify?_function function, classify?_function function, Option.map_map, Option.map_map]
    change (s.functionName? u).map _ = _
    congr 1
    funext name
    apply Candidate.merged_ofFunction
    rw [map_snd_owner, map_snd_owner]
  · simp only [classify?, if_neg function]
    rfl

theorem scope?_attributing (s : Setting) (a : Attribution) (u : Tree) :
    (s.attributing a).scope? u = s.scope? u := by
  have opens (s : Setting) : (s.classify? [] u).bind (·.opens) =
      ((s.classify? [] u).map Candidate.merged).bind (·.opens) := by
    cases s.classify? [] u <;> rfl
  rw [scope?, scope?, opens, opens s, classify?_attributing]

end Setting

namespace Pass

variable {s : Setting} {u : Tree} {p q : Pass} {nodes : List Tree}

/-- Two passes have the same scopes open and have kept the same, but for the places of scopes. -/
structure Alike (p q : Pass) : Prop where
  scopes : q.scopes = p.scopes
  kept : q.kept.map Found.merged = p.kept.map Found.merged

/-- The names of constructs decide nothing about what goes together. -/
theorem admits_merged (nest : Bool) (kept : List Found) (f : Found) :
    admits nest (kept.map Found.merged) f.merged = admits nest kept f := by
  rw [admits, List.all_map]
  rfl

/-- Another attribution decides nothing about what is kept. -/
theorem Alike.visit (alike : Alike p q) (a : Attribution) (u : Tree) :
    Alike (visit s p u) (visit (s.attributing a) q u) := by
  constructor
  · rw [visit_scopes, visit_scopes, alike.scopes, Setting.scope?_attributing]
  · have same := Setting.classify?_attributing s a (p.scopes.leave u.span.start) u
    cases found : s.classify? (p.scopes.leave u.span.start) u with
    | none =>
      rw [found, Option.map_none, Option.map_eq_none_iff, ← alike.scopes] at same
      rw [visit_kept_of_none found, visit_kept_of_none same]
      exact alike.kept
    | some c =>
      rw [found, Option.map_some, Option.map_eq_some_iff, ← alike.scopes] at same
      obtain ⟨d, found', same⟩ := same
      have merges : Found.merged ⟨u, d⟩ = Found.merged ⟨u, c⟩ := congrArg (Found.mk u) same
      have admitted : admits s.options.nestMembers q.kept ⟨u, d⟩ =
          admits s.options.nestMembers p.kept ⟨u, c⟩ := by
        rw [← admits_merged, ← admits_merged _ p.kept, alike.kept, merges]
      rw [visit_kept_of_some found, visit_kept_of_some found']
      change (if admits s.options.nestMembers q.kept ⟨u, d⟩ = true then _ else _ : List Found).map _ =
        _
      rw [admitted]
      split
      · rw [List.map_cons, List.map_cons, merges, alike.kept]
      · exact alike.kept

theorem alike_after (a : Attribution) (nodes : List Tree) :
    Alike (after s nodes) (after (s.attributing a) nodes) := by
  induction nodes using List.reverseRecOn with
  | nil => exact ⟨rfl, rfl⟩
  | append_singleton nodes u ih =>
    rw [after_concat, after_concat]
    exact ih.visit a u

end Pass

theorem Names.eq_of_merged {kind : Kind} {n m : Names} (same : m.merged kind = n.merged kind) :
    (kind.isFunction = false → m = n) ∧ m.functionName = n.functionName ∧
      m.arrayName = n.arrayName ∧ m.className.or m.structName = n.className.or n.structName := by
  rw [merged, merged] at same
  cases function : kind.isFunction with
  | false =>
    obtain rfl : m = n := by simpa [function] using same
    exact ⟨fun _ => rfl, rfl, rfl, rfl⟩
  | true =>
    rw [function, if_pos rfl, if_pos rfl, Names.mk.injEq] at same
    obtain ⟨own, owner, -, array⟩ := same
    exact ⟨nofun, own, array, owner⟩

/-- Chunks that are the same with the scopes in one place are the same but for that place. -/
theorem Chunk.reowned_of_merged {c d : Chunk} (same : d.merged = c.merged) : c.Reowned d := by
  have kind : d.merged.kind = c.merged.kind := by rw [same]
  have names : d.merged.names = c.merged.names := by rw [same]
  have rest : { d.merged with names := c.names } = { c.merged with names := c.names } := by rw [same]
  change d.names.merged d.kind = c.names.merged c.kind at names
  rw [show d.kind = c.kind from kind] at names
  obtain ⟨others, own, array, owner⟩ := Names.eq_of_merged names
  exact ⟨rest, others, own, array, owner⟩

namespace Setting

variable {s : Setting} {file : String} {t : Tree}

/-- Sorting moves chunks with merged scopes as it moves the chunks. -/
theorem merged_chunks (s : Setting) (file : String) (t : Tree) :
    (s.chunks file t).map Chunk.merged =
      (((Pass.found s t).map Found.merged).map (Found.toChunk s.source file)).mergeSort
        fun c d => c.startLine ≤ d.startLine := by
  rw [chunks, List.map_mergeSort (s := fun c d : Chunk => decide (c.startLine ≤ d.startLine)),
    List.map_map, List.map_map]
  · rfl
  · exact fun c _ d _ => rfl

theorem slots_of_mem_chunks (c : Chunk) (listed : c ∈ s.chunks file t) :
    Slots s.language s.options.attribution c.kind c.names := by
  obtain ⟨f, found, rfl⟩ := mem_chunks.mp listed
  rw [Pass.found_eq, List.mem_reverse] at found
  exact (Pass.slotted_after t.walk).kept f found

/-- The kind of a chunk, the language and the attribution decide which names it has. By another
attribution the chunks are the same, but for the places of the scopes of functions. -/
theorem slots_of_pass (s : Setting) (file : String) (t : Tree) :
    (∀ c ∈ s.chunks file t, Slots s.language s.options.attribution c.kind c.names) ∧
    ∀ a, List.Forall₂ Chunk.Reowned (s.chunks file t) ((s.attributing a).chunks file t) := by
  refine ⟨slots_of_mem_chunks, fun a => ?_⟩
  have found : (Pass.found (s.attributing a) t).map Found.merged =
      (Pass.found s t).map Found.merged := by
    rw [Pass.found_eq, Pass.found_eq, List.map_reverse, List.map_reverse,
      (Pass.alike_after a t.walk).kept]
  have merged : (s.chunks file t).map Chunk.merged =
      ((s.attributing a).chunks file t).map Chunk.merged := by
    rw [merged_chunks, merged_chunks, found]
    rfl
  rw [← List.forall₂_eq_eq_eq, List.forall₂_map_left_iff, List.forall₂_map_right_iff] at merged
  exact merged.imp fun c d same => Chunk.reowned_of_merged same.symm

end Setting

end CodeSearch
