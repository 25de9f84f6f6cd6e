import Mathlib.Algebra.Order.BigOperators.Group.List
import Mathlib.Algebra.Order.Group.Nat
import Mathlib.Data.List.Forall2
import Mathlib.Data.Option.Basic
import CodeSearch.Name.Qualified
import CodeSearch.Proofs.Text.Blank
import CodeSearch.Proofs.Text.Utf8
import CodeSearch.Proofs.Tree.Chain
import CodeSearch.Proofs.Tree.Nesting

/-! # The parts of a qualified name

A qualified name is split along its links. Each of them may say a scope and leads on to what it
qualifies, so there is a name exactly if all links lead on and every part says something. The
arguments of a template are left out with the node that holds them beside its name; they are in the
name if they lie in what spells a part.
-/

namespace CodeSearch

namespace Span

variable {α : Type} {xs ys : List α} {s : Span} {i : Nat}

theorem getElem?_slice (j : Nat) :
    (s.slice xs)[j]? = if j < s.stop - s.start then xs[s.start + j]? else none := by
  rw [slice, List.getElem?_take, List.getElem?_drop]

theorem slice_congr (same : ∀ i, s.Covers i → xs[i]? = ys[i]?) : s.slice xs = s.slice ys := by
  apply List.ext_getElem?
  intro j
  rw [getElem?_slice, getElem?_slice]
  split
  · exact same _ ⟨by omega, by omega⟩
  · rfl

theorem mem_slice {x : α} (covers : s.Covers i) (there : xs[i]? = some x) : x ∈ s.slice xs := by
  obtain ⟨starts, stops⟩ := covers
  apply List.mem_of_getElem? (i := i - s.start)
  rw [getElem?_slice, if_pos (by omega), Nat.add_sub_cancel' starts]
  exact there

end Span

namespace QualifiedName

open Text

/-- The links from a node on: the nodes that say scopes, and the node that the last link leads to. -/
inductive Links : Tree → List Tree → Tree → Prop
  | stop {t} (stops : isLink t = false) : Links t [] t
  | link {t u scopes last} (isLink : isLink t = true) (name : t.field? "name" = some u)
      (rest : Links u scopes last) : Links t ((t.field? "scope").toList ++ scopes) last

/-- A link leads nowhere. -/
inductive Broken : Tree → Prop
  | here {t} (isLink : isLink t = true) (nameless : t.field? "name" = none) : Broken t
  | later {t u} (isLink : isLink t = true) (name : t.field? "name" = some u) (rest : Broken u) :
      Broken t

/-- What a part says: the words of the node that spells it, with a space between neighbours. -/
def Says (source : Bytes) (u : Tree) (name : String) : Prop :=
  ∃ v text ws, spelling? u = some v ∧ v.text? source = some text ∧ Spaced ws text.toList ∧
    ws ≠ [] ∧ name = " ".intercalate (ws.map String.ofList)

/-- A part says nothing: it is a template without a name, no text or blank. -/
inductive Silent (source : Bytes) (u : Tree) : Prop
  | nameless (nameless : spelling? u = none)
  | unreadable {v} (spelled : spelling? u = some v) (unreadable : v.text? source = none)
  | blank {v text} (spelled : spelling? u = some v) (read : v.text? source = some text)
      (blank : ∀ c ∈ text.toList, isBlank c = true)

def joined (names : List String) : Option String :=
  if names.isEmpty then none else some ("::".intercalate names)

/-- How a name is split. -/
structure Splits (source : Bytes) (t : Tree) : Prop where
  ends : Broken t ↔ ¬ ∃ scopes last, Links t scopes last
  /-- The scopes in the order of the links, and what the last link leads to. -/
  value : ∀ scopes last, Links t scopes last → ∀ q, ofTree? source t = some q ↔
    ∃ names, List.Forall₂ (Says source) scopes names ∧ q.scope = joined names ∧
      Says source last q.leaf
  nothing : ofTree? source t = none ↔
    Broken t ∨ ∃ scopes last, Links t scopes last ∧ ∃ u ∈ scopes ++ [last], Silent source u

variable {source : Bytes} {t u v last : Tree} {scopes : List Tree} {name : String}

/-! ## Parts -/

theorem plain?_eq_some : plain? source u = some name ↔ Says source u name := by
  simp only [plain?, Option.bind_eq_some_iff, nonempty?_collapse]
  constructor
  · rintro ⟨v, spelled, text, read, ws, spaced, some_, rfl⟩
    exact ⟨v, text, ws, spelled, read, spaced, some_, rfl⟩
  · rintro ⟨v, text, ws, spelled, read, spaced, some_, rfl⟩
    exact ⟨v, spelled, text, read, ws, spaced, some_, rfl⟩

theorem plain?_eq_none : plain? source u = none ↔ Silent source u := by
  constructor
  · intro nothing
    cases spelled : spelling? u with
    | none => exact .nameless spelled
    | some v =>
      rw [plain?, spelled, Option.bind_some] at nothing
      cases read : v.text? source with
      | none => exact .unreadable spelled read
      | some text =>
        rw [read, Option.bind_some] at nothing
        exact .blank spelled read (nonempty?_collapse_eq_none.mp nothing)
  · rintro (nameless | ⟨spelled, unreadable⟩ | ⟨spelled, read, blank⟩)
    · rw [plain?, nameless, Option.bind_none]
    · rw [plain?, spelled, Option.bind_some, unreadable, Option.bind_none]
    · rw [plain?, spelled, Option.bind_some, read, Option.bind_some]
      exact nonempty?_collapse_eq_none.mpr blank

theorem mapM_eq_some_iff {α β : Type} {f : α → Option β} {xs : List α} {ys : List β} :
    xs.mapM f = some ys ↔ List.Forall₂ (fun x y => f x = some y) xs ys := by
  induction xs generalizing ys with
  | nil => simp [eq_comm]
  | cons x xs ih =>
    simp only [List.mapM_cons, List.forall₂_cons_left_iff, Option.bind_eq_bind,
      Option.bind_eq_some_iff, ih]
    constructor
    · rintro ⟨y, first, ys, rest, ⟨⟩⟩
      exact ⟨y, ys, first, rest, rfl⟩
    · rintro ⟨y, ys, first, rest, rfl⟩
      exact ⟨y, first, ys, rest, rfl⟩

/-! ## Links -/

theorem descends_next? : Tree.Descends next? := by
  intro t u next
  rw [next?] at next
  split at next
  · exact List.mem_of_find?_eq_some next
  · cases next

theorem next?_of_isLink (isLink : isLink t = true) : next? t = t.field? "name" := if_pos isLink

theorem next?_eq_some : next? t = some u ↔ isLink t = true ∧ t.field? "name" = some u := by
  rw [next?]
  split
  · simp [*]
  · simp [*]

/-- From each node on, the links lead to a node or break. -/
theorem links_or_broken (t : Tree) : (∃ scopes last, Links t scopes last) ∨ Broken t := by
  induction t using Tree.chain_induction descends_next? with
  | stop t next =>
    cases isLink : isLink t with
    | false => exact .inl ⟨[], t, .stop isLink⟩
    | true => exact .inr (.here isLink ((next?_of_isLink isLink).symm.trans next))
  | go t u next ih =>
    obtain ⟨isLink, name⟩ := next?_eq_some.mp next
    rcases ih with ⟨scopes, last, rest⟩ | rest
    · exact .inl ⟨_, last, .link isLink name rest⟩
    · exact .inr (.later isLink name rest)

theorem chain_of_links (links : Links t scopes last) :
    (t.chain next?).getLast? = some last ∧ isLink last = false ∧
      (t.chain next?).dropLast.filterMap (·.field? "scope") = scopes := by
  induction links with
  | @stop t stops =>
    have alone : t.chain next? = [t] := by
      apply Tree.chain_of_none
      rw [next?, if_neg (Bool.eq_false_iff.mp stops)]
    rw [alone]
    exact ⟨rfl, stops, rfl⟩
  | @link t u scopes last isLink name rest ih =>
    have next : next? t = some u := next?_eq_some.mpr ⟨isLink, name⟩
    obtain ⟨ends, stops, listed⟩ := ih
    refine ⟨(Tree.getLast?_chain descends_next? next).trans ends, stops, ?_⟩
    have more : u.chain next? ≠ [] := List.ne_nil_of_mem (Tree.mem_chain_self u)
    rw [Tree.chain_of_some descends_next? next, List.dropLast_cons_of_ne_nil more,
      List.filterMap_cons, listed]
    cases t.field? "scope" <;> rfl

theorem chain_of_broken (broken : Broken t) :
    ∃ last, (t.chain next?).getLast? = some last ∧ isLink last = true := by
  induction broken with
  | @here t isLink nameless =>
    refine ⟨t, ?_, isLink⟩
    rw [Tree.chain_of_none ((next?_of_isLink isLink).trans nameless)]
    rfl
  | later isLink name rest ih =>
    obtain ⟨last, ends, stuck⟩ := ih
    have next := next?_eq_some.mpr ⟨isLink, name⟩
    exact ⟨last, (Tree.getLast?_chain descends_next? next).trans ends, stuck⟩

theorem not_links_of_broken (broken : Broken t) : ¬ Links t scopes last := by
  intro links
  obtain ⟨ends, stops, -⟩ := chain_of_links links
  obtain ⟨stuck, ends', isLink⟩ := chain_of_broken broken
  obtain rfl := Option.some.inj (ends.symm.trans ends')
  rw [stops] at isLink
  cases isLink

theorem broken_iff : Broken t ↔ ¬ ∃ scopes last, Links t scopes last := by
  constructor
  · rintro broken ⟨scopes, last, links⟩
    exact not_links_of_broken broken links
  · exact (links_or_broken t).resolve_left

/-! ## The split -/

theorem ofTree?_of_broken (broken : Broken t) : ofTree? source t = none := by
  obtain ⟨last, ends, isLink⟩ := chain_of_broken broken
  simp [ofTree?, ofChain?, ends, isLink]

theorem ofTree?_of_links (links : Links t scopes last) :
    ofTree? source t = (scopes.mapM (plain? source)).bind fun names =>
      (plain? source last).map fun leaf => ⟨joined names, leaf⟩ := by
  obtain ⟨ends, stops, listed⟩ := chain_of_links links
  simp only [ofTree?, ofChain?, ends, Option.bind_eq_bind, Option.bind_some, stops, listed]
  cases scopes.mapM (plain? source) with
  | none => rfl
  | some names => cases plain? source last <;> rfl

theorem ofTree?_eq_some (links : Links t scopes last) (q : QualifiedName) :
    ofTree? source t = some q ↔ ∃ names, List.Forall₂ (Says source) scopes names ∧
      q.scope = joined names ∧ Says source last q.leaf := by
  simp only [ofTree?_of_links links, Option.bind_eq_some_iff, Option.map_eq_some_iff,
    mapM_eq_some_iff, plain?_eq_some]
  constructor
  · rintro ⟨names, said, leaf, spelled, rfl⟩
    exact ⟨names, said, rfl, spelled⟩
  · rintro ⟨names, said, scope, spelled⟩
    exact ⟨names, said, q.leaf, spelled, by rw [← scope]⟩

theorem exists_forall₂_iff {α β : Type} {R : α → β → Prop} {xs : List α} :
    (∃ ys, List.Forall₂ R xs ys) ↔ ∀ x ∈ xs, ∃ y, R x y := by
  induction xs with
  | nil => simp
  | cons x xs ih =>
    rw [List.forall_mem_cons, ← ih]
    constructor
    · rintro ⟨_, said⟩
      cases said with
      | cons first rest => exact ⟨⟨_, first⟩, _, rest⟩
    · rintro ⟨⟨y, first⟩, ys, rest⟩
      exact ⟨y :: ys, .cons first rest⟩

theorem not_silent_iff : ¬ Silent source u ↔ ∃ name, Says source u name := by
  simp only [← plain?_eq_none, ← plain?_eq_some]
  exact Option.ne_none_iff_exists'

/-- There is a name exactly if all parts say something. -/
theorem exists_ofTree?_iff (links : Links t scopes last) :
    (∃ q, ofTree? source t = some q) ↔ ∀ u ∈ scopes ++ [last], ¬ Silent source u := by
  simp only [List.forall_mem_append, List.forall_mem_singleton, not_silent_iff,
    ← exists_forall₂_iff, ofTree?_eq_some links]
  constructor
  · rintro ⟨q, names, said, -, own⟩
    exact ⟨⟨names, said⟩, q.leaf, own⟩
  · rintro ⟨⟨names, said⟩, leaf, own⟩
    exact ⟨⟨joined names, leaf⟩, names, said, rfl, own⟩

theorem ofTree?_eq_none_of_links (links : Links t scopes last) :
    ofTree? source t = none ↔ ∃ u ∈ scopes ++ [last], Silent source u := by
  calc ofTree? source t = none ↔ ¬ ∃ q, ofTree? source t = some q := by
        rw [← Option.ne_none_iff_exists', not_not]
    _ ↔ ¬ ∀ u ∈ scopes ++ [last], ¬ Silent source u := not_congr (exists_ofTree?_iff links)
    _ ↔ ∃ u ∈ scopes ++ [last], Silent source u := by
        push Not
        rfl

theorem splits (source : Bytes) (t : Tree) : Splits source t where
  ends := broken_iff
  value := fun scopes last => ofTree?_eq_some
  nothing := by
    constructor
    · intro nothing
      rcases links_or_broken t with ⟨scopes, last, links⟩ | broken
      · exact .inr ⟨scopes, last, links, (ofTree?_eq_none_of_links links).mp nothing⟩
      · exact .inl broken
    · rintro (broken | ⟨scopes, last, links, silent⟩)
      · exact ofTree?_of_broken broken
      · exact (ofTree?_eq_none_of_links links).mpr silent

theorem Says.ne_empty (said : Says source u name) : name ≠ "" := by
  obtain ⟨v, spelled, said⟩ := Option.bind_eq_some_iff.mp (plain?_eq_some.mpr said)
  obtain ⟨text, read, said⟩ := Option.bind_eq_some_iff.mp said
  obtain ⟨nonempty, rfl⟩ := nonempty?_eq_some.mp said
  exact nonempty

/-- Neither part of a name is empty. -/
theorem ne_empty_of_ofTree? {q : QualifiedName} (read : ofTree? source t = some q) :
    q.leaf ≠ "" ∧ ∀ scope, q.scope = some scope → scope ≠ "" := by
  rcases links_or_broken t with ⟨scopes, last, links⟩ | broken
  · obtain ⟨names, said, joins, own⟩ := (ofTree?_eq_some links q).mp read
    refine ⟨own.ne_empty, fun scope there => ?_⟩
    rw [joins, joined] at there
    split at there
    · cases there
    · rename_i some_
      obtain rfl := Option.some.inj there
      apply intercalate_ne_empty
      · exact fun none_ => some_ (List.isEmpty_iff.mpr none_)
      · intro name listed
        obtain ⟨u, saidHere⟩ := exists_forall₂_iff.mp ⟨scopes, said.flip⟩ name listed
        exact Says.ne_empty saidHere
  · rw [ofTree?_of_broken broken] at read
    cases read

/-! ## Arguments of templates -/

def isArguments (t : Tree) : Bool := t.kind = "template_argument_list"

/-- A byte of the arguments of a template. -/
def Argued (t : Tree) (i : Nat) : Prop := ∃ u ∈ t.preorder, isArguments u = true ∧ u.span.Covers i

/-- Sources that differ in the arguments of templates only. -/
structure SameButArguments (t : Tree) (a b : Bytes) : Prop where
  length : a.length = b.length
  same : ∀ i, ¬ Argued t i → a[i]? = b[i]?

/-- The name does not depend on the arguments of templates. -/
def IgnoresArguments (t : Tree) : Prop :=
  ∀ a b, SameButArguments t a b → ofTree? a t = ofTree? b t

/-- A node that spells a part of the name. -/
def Spells (t v : Tree) : Prop :=
  ∃ scopes last, Links t scopes last ∧ ∃ u ∈ scopes ++ [last], spelling? u = some v

/-- No part is spelled with a byte of an argument. -/
def Spares (t : Tree) : Prop := ∀ v, Spells t v → ∀ i, v.span.Covers i → ¬ Argued t i

section Arguments

variable {a b : Bytes} {i n : Nat}

theorem plain?_congr (same : ∀ v, spelling? u = some v → v.bytes a = v.bytes b) :
    plain? a u = plain? b u := by
  rw [plain?, plain?]
  cases spelled : spelling? u with
  | none => rfl
  | some v => rw [Option.bind_some, Option.bind_some, Tree.text?, Tree.text?, same v spelled]

theorem mapM_congr {α β : Type} {f g : α → Option β} {xs : List α} (same : ∀ x ∈ xs, f x = g x) :
    xs.mapM f = xs.mapM g := by
  induction xs with
  | nil => rfl
  | cons x xs ih =>
    obtain ⟨first, rest⟩ := List.forall_mem_cons.mp same
    rw [List.mapM_cons, List.mapM_cons, first, ih rest]

/-- The bytes of the nodes that spell the parts decide the name. -/
theorem ofTree?_congr (same : ∀ v, Spells t v → v.bytes a = v.bytes b) :
    ofTree? a t = ofTree? b t := by
  rcases links_or_broken t with ⟨scopes, last, links⟩ | broken
  · have parts : ∀ u ∈ scopes ++ [last], plain? a u = plain? b u := by
      intro u listed
      apply plain?_congr
      exact fun v spelled => same v ⟨scopes, last, links, u, listed, spelled⟩
    obtain ⟨before, own⟩ := List.forall_mem_append.mp parts
    rw [ofTree?_of_links links, ofTree?_of_links links, mapM_congr before,
      own last List.mem_cons_self]
  · rw [ofTree?_of_broken broken, ofTree?_of_broken broken]

theorem ignoresArguments_of_spares (spares : Spares t) : IgnoresArguments t := by
  intro a b differ
  apply ofTree?_congr
  intro v spells
  apply Span.slice_congr
  exact fun i covers => differ.same i (spares v spells i covers)

theorem silent_of_empty (spelled : spelling? u = some v) (empty : v.span.stop ≤ v.span.start) :
    Silent source u := by
  have read : v.text? source = some "" := by
    rw [Tree.text?, Tree.bytes, Span.slice, Nat.sub_eq_zero_of_le empty, List.take_zero]
    rfl
  exact .blank spelled read nofun

/-- A byte that is in no text silences the part that it gets into. -/
theorem silent_of_set (spelled : spelling? u = some v) (covers : v.span.Covers i)
    (within : v.span.stop ≤ source.length) : Silent (source.set i 255) u := by
  have there : (source.set i 255)[i]? = some 255 :=
    List.getElem?_set_self (Nat.lt_of_lt_of_le covers.2 within)
  apply Silent.unreadable spelled
  exact Utf8.decode?_eq_none (Span.mem_slice covers there)

/-- So many letters. -/
def letters (n : Nat) : Bytes := List.replicate n 97

theorem decode?_letters (n : Nat) :
    Utf8.decode? (letters n) = some (String.ofList (List.replicate n 'a')) := by
  have spelled : letters n = Utf8.encode (String.ofList (List.replicate n 'a')) := by
    rw [Utf8.encode_ofList, List.flatMap_replicate]
    exact List.flatten_replicate_singleton.symm
  rw [spelled, Utf8.decode?_encode]

theorem bytes_letters (within : v.span.stop ≤ n) :
    v.bytes (letters n) = letters (v.span.stop - v.span.start) := by
  rw [Tree.bytes, Span.slice, letters, List.drop_replicate, List.take_replicate, Nat.min_eq_left]
  · rfl
  · omega

/-- Among letters all parts with bytes say something. -/
theorem not_silent_letters (spelled : spelling? u = some v) (filled : v.span.start < v.span.stop)
    (within : v.span.stop ≤ n) : ¬ Silent (letters n) u := by
  have read := decode?_letters (v.span.stop - v.span.start)
  rw [← bytes_letters within] at read
  rintro (nameless | ⟨spelled', unreadable⟩ | ⟨spelled', read', blank⟩)
  · rw [spelled] at nameless
    cases nameless
  · obtain rfl := Option.some.inj (spelled.symm.trans spelled')
    exact Option.some_ne_none _ (read.symm.trans unreadable)
  · obtain rfl := Option.some.inj (spelled.symm.trans spelled')
    obtain rfl := Option.some.inj (read.symm.trans read')
    have letter : 'a' ∈ List.replicate (v.span.stop - v.span.start) 'a' :=
      List.mem_replicate.mpr ⟨by omega, rfl⟩
    exact absurd (blank 'a' (by rwa [String.toList_ofList])) (by decide)

theorem preorder_subset_of_links (links : Links t scopes last) (listed : u ∈ scopes ++ [last]) :
    u.preorder ⊆ t.preorder := by
  induction links with
  | stop stops =>
    obtain rfl := List.mem_singleton.mp listed
    exact List.Subset.refl _
  | @link t w scopes last isLink name rest ih =>
    rw [List.append_assoc] at listed
    rcases List.mem_append.mp listed with scope | later
    · exact Tree.preorder_subset_of_child (List.mem_of_find?_eq_some (Option.mem_toList.mp scope))
    · exact List.Subset.trans (ih later)
        (Tree.preorder_subset_of_child (List.mem_of_find?_eq_some name))

theorem preorder_subset_of_spelling? (spelled : spelling? u = some v) :
    v.preorder ⊆ u.preorder := by
  rw [spelling?] at spelled
  split at spelled
  · exact Tree.preorder_subset_of_child (List.mem_of_find?_eq_some spelled)
  · obtain rfl := Option.some.inj spelled
    exact List.Subset.refl _

theorem preorder_subset_of_spells (spells : Spells t v) : v.preorder ⊆ t.preorder := by
  obtain ⟨scopes, last, links, u, listed, spelled⟩ := spells
  exact List.Subset.trans (preorder_subset_of_spelling? spelled)
    (preorder_subset_of_links links listed)

/-- Where some source is read, enough letters are. -/
theorem exists_letters (links : Links t scopes last) {q : QualifiedName}
    (read : ofTree? source t = some q) : ∃ n, (∃ q, ofTree? (letters n) t = some q) ∧
      ∀ v, Spells t v → v.span.stop ≤ n := by
  obtain ⟨n, within⟩ : ∃ n, ∀ w ∈ t.preorder, w.span.stop ≤ n :=
    ⟨(t.preorder.map fun w => w.span.stop).sum, fun w there =>
      List.le_sum_of_mem (List.mem_map_of_mem there)⟩
  have reaches (v : Tree) (spells : Spells t v) : v.span.stop ≤ n :=
    within v (preorder_subset_of_spells spells v.mem_preorder_self)
  refine ⟨n, (exists_ofTree?_iff links).mpr fun u listed => ?_, reaches⟩
  have speaks := (exists_ofTree?_iff links).mp ⟨q, read⟩ u listed
  obtain ⟨name, v, text, ws, spelled, -⟩ := not_silent_iff.mp speaks
  apply not_silent_letters spelled
  · exact Nat.lt_of_not_le fun empty => speaks (silent_of_empty spelled empty)
  · exact reaches v ⟨scopes, last, links, u, listed, spelled⟩

/-- A name that is read of some source and never depends on arguments has none in its parts. -/
theorem spares_of_ignoresArguments (ignores : IgnoresArguments t) {q : QualifiedName}
    (read : ofTree? source t = some q) : Spares t := by
  rintro v spells i covers argued
  obtain ⟨scopes, last, links, u, listed, spelled⟩ := id spells
  obtain ⟨n, ⟨p, named⟩, reaches⟩ := exists_letters links read
  have within : v.span.stop ≤ (letters n).length := by
    rw [letters, List.length_replicate]
    exact reaches v spells
  have differ : SameButArguments t (letters n) ((letters n).set i 255) := by
    constructor
    · exact List.length_set.symm
    · intro j outside
      apply Eq.symm
      apply List.getElem?_set_ne
      rintro rfl
      exact outside argued
  have lost := (ofTree?_eq_none_of_links links).mpr
    ⟨u, listed, silent_of_set spelled covers within⟩
  exact Option.some_ne_none p (named.symm.trans ((ignores _ _ differ).trans lost))

/-! ### Trees of a parser -/

theorem mem_preorder_of_links (wf : t.WellFormed) (links : Links t scopes last)
    (part : v ∈ scopes ++ [last]) (listed : u ∈ t.preorder) (arguments : isArguments u = true)
    (here : u.span.Covers i) (there : v.span.Covers i) : u ∈ v.preorder := by
  induction links with
  | stop stops =>
    obtain rfl := List.mem_singleton.mp part
    exact listed
  | @link t w scopes last link name rest ih =>
    have below : u ≠ t := by
      rintro rfl
      simp only [isArguments, isLink, decide_eq_true_eq] at arguments link
      rw [arguments] at link
      exact absurd link (by decide)
    rw [List.append_assoc] at part
    rcases List.mem_append.mp part with scope | later
    · have child := List.mem_of_find?_eq_some (Option.mem_toList.mp scope)
      exact Tree.mem_preorder_of_covers wf child listed below here there
    · have child := List.mem_of_find?_eq_some name
      have inside := preorder_subset_of_links rest later v.mem_preorder_self
      have around := Tree.contains_of_mem_preorder (wf.child child) v inside
      apply ih (wf.child child) later
      exact Tree.mem_preorder_of_covers wf child listed below here (there.of_contains around)

theorem mem_preorder_of_spells (wf : t.WellFormed) (spells : Spells t v) (listed : u ∈ t.preorder)
    (arguments : isArguments u = true) (here : u.span.Covers i) (there : v.span.Covers i) :
    u ∈ v.preorder := by
  obtain ⟨scopes, last, links, w, part, spelled⟩ := spells
  have wf' : w.WellFormed := fun x inside => wf x (preorder_subset_of_links links part inside)
  have around := Tree.contains_of_mem_preorder wf' v
    (preorder_subset_of_spelling? spelled v.mem_preorder_self)
  have inside := mem_preorder_of_links wf links part listed arguments here
    (there.of_contains around)
  rw [spelling?] at spelled
  split at spelled
  · rename_i template
    have below : u ≠ w := by
      rintro rfl
      simp only [isArguments, decide_eq_true_eq] at arguments
      simp [isTemplate, arguments] at template
    exact Tree.mem_preorder_of_covers wf' (List.mem_of_find?_eq_some spelled) inside below here there
  · obtain rfl := Option.some.inj spelled
    exact inside

/-- In the tree of a parser the parts have no byte of an argument exactly if none of them is spelled
by a node that holds arguments. -/
theorem spares_iff (wf : t.WellFormed) : Spares t ↔ ∀ v, Spells t v → ∀ u ∈ v.preorder,
    isArguments u = true → u.span.stop ≤ u.span.start := by
  constructor
  · intro spares v spells u inside arguments
    have listed := preorder_subset_of_spells spells inside
    by_contra filled
    have here : u.span.Covers u.span.start := ⟨Nat.le_refl _, Nat.lt_of_not_le filled⟩
    have wf' : v.WellFormed := fun w inside => wf w (preorder_subset_of_spells spells inside)
    have around := Tree.contains_of_mem_preorder wf' u inside
    exact spares v spells _ (here.of_contains around) ⟨u, listed, arguments, here⟩
  · rintro bare v spells i there ⟨u, listed, arguments, here⟩
    have inside := mem_preorder_of_spells wf spells listed arguments here there
    have empty := bare v spells u inside arguments
    exact absurd (Nat.lt_of_le_of_lt here.1 here.2) (Nat.not_lt.mpr empty)

end Arguments

/-- Every name is split along its links. It does not depend on the arguments of templates exactly if
it is never read or none of its parts has a byte of an argument. In the tree of a parser this is so if
and only if no part is spelled by a node with arguments in it. -/
theorem ignoresArguments_iff (t : Tree) :
    (∀ source, Splits source t) ∧
    (IgnoresArguments t ↔ (∀ source, ofTree? source t = none) ∨ Spares t) ∧
    (t.WellFormed → (Spares t ↔ ∀ v, Spells t v → ∀ u ∈ v.preorder, isArguments u = true →
      u.span.stop ≤ u.span.start)) := by
  refine ⟨fun source => splits source t, ⟨?_, ?_⟩, spares_iff⟩
  · intro ignores
    by_cases nothing : ∀ source, ofTree? source t = none
    · exact .inl nothing
    · obtain ⟨source, named⟩ := not_forall.mp nothing
      obtain ⟨q, read⟩ := Option.ne_none_iff_exists'.mp named
      exact .inr (spares_of_ignoresArguments ignores read)
  · rintro (nothing | spares)
    · exact fun a b _ => (nothing a).trans (nothing b).symm
    · exact ignoresArguments_of_spares spares

/-- The name in `void A::template f<int>() {}`. -/
def dependentName : Tree :=
  .plain "qualified_identifier" 5 23 (some "declarator")
    [.plain "namespace_identifier" 5 6 (some "scope") [], dependent]
where
  /-- What the link leads to, which is no template but holds one. -/
  dependent : Tree :=
    .plain "dependent_name" 8 23 (some "name")
      [.plain "template_function" 17 23 none
        [.plain "identifier" 17 18 (some "name") [], arguments]]
  arguments : Tree :=
    .plain "template_argument_list" 18 23 (some "arguments")
      [.plain "type_descriptor" 19 22 none [.plain "primitive_type" 19 22 (some "type") []]]

/-- The template in a dependent name keeps its arguments. -/
theorem not_ignoresArguments_dependentName :
    dependentName.WellFormed ∧
    ofTree? (Utf8.encode "void A::template f<int>() {}") dependentName =
      some ⟨some "A", "template f<int>"⟩ ∧
    ofTree? (Utf8.encode "void A::template f<one>() {}") dependentName =
      some ⟨some "A", "template f<one>"⟩ ∧
    ¬ IgnoresArguments dependentName := by
  obtain ⟨-, ignores, bare⟩ := ignoresArguments_iff dependentName
  have wf : dependentName.WellFormed := by decide
  have named : ofTree? (Utf8.encode "void A::template f<int>() {}") dependentName =
      some ⟨some "A", "template f<int>"⟩ := by decide +kernel
  refine ⟨wf, named, by decide +kernel, fun always => ?_⟩
  rcases ignores.mp always with nothing | spares
  · rw [nothing] at named
    cases named
  · have spells : Spells dependentName dependentName.dependent :=
      ⟨_, _, .link rfl rfl (.stop rfl), dependentName.dependent,
        List.mem_append_right _ List.mem_cons_self, rfl⟩
    have inside : dependentName.arguments ∈ dependentName.dependent.preorder :=
      Tree.preorder_subset_of_child List.mem_cons_self (Tree.preorder_subset_of_child
        (List.mem_cons_of_mem _ List.mem_cons_self) dependentName.arguments.mem_preorder_self)
    have empty := (bare wf).mp spares _ spells _ inside rfl
    exact absurd empty (by decide)

end QualifiedName

end CodeSearch
