import Mathlib.Data.List.Basic
import Mathlib.Data.List.Perm.Subperm
import CodeSearch.Proofs.Files.Names

/-! # What is below a directory

A walk joins the names that it finds in a directory to the path that it came on. However that path
is spelled, it gains the names as steps, and it is these that the longer path adds to the first one.
The names in a directory are those of the entries one step below it, so a file is no deeper than
there are entries.
-/

namespace CodeSearch

namespace Path

variable {p base : Path} {d s : String} {ds ps names names' : List String} {rest : List Step}

/-- The path some names below. -/
def below (p : Path) (names : List String) : Path := names.foldl join p

theorem below_concat (p : Path) (names : List String) (s : String) :
    (p.below names).join s = p.below (names ++ [s]) :=
  (List.foldl_concat ..).symm

/-- The steps of the first of several pieces. -/
def firstSteps (d : String) : List Step :=
  if d = "" then [.root] else if d = "." then [.here] else (step? d).toList

theorem steps_cons (more : d = "" → ds ≠ []) :
    (Path.mk (d :: ds)).steps = firstSteps d ++ ds.filterMap step? := by
  rw [steps, body, lead_cons, firstSteps]
  by_cases root : d = ""
  · simp [root, more root, leadSteps]
  · by_cases dot : d = "."
    · simp [dot, leadSteps]
    · cases step : step? d <;> simp [root, dot, leadSteps, step]

theorem steps_join (named : step? s = some (.name s)) :
    (p.join s).steps = p.steps ++ [.name s] := by
  have last : [s].filterMap step? = [.name s] := by simp [named]
  have alone : (Path.mk [s]).steps = [.name s] := by
    have idle := not_idle_of_step named
    have marked : s ≠ "" ∧ s ≠ "." := by simpa [isIdle] using idle
    rw [steps_cons fun none => absurd none marked.1, firstSteps, if_neg marked.1, if_neg marked.2,
      named]
    rfl
  obtain ⟨pieces⟩ := p
  rcases List.eq_nil_or_concat pieces with rfl | ⟨front, d, rfl⟩
  · exact alone
  · rw [List.concat_eq_append]
    by_cases blank : d = ""
    · -- the slash at the end is there already
      subst blank
      have joined : (Path.mk (front ++ [""])).join s = ⟨front ++ [s]⟩ := by simp [join]
      rw [joined]
      rcases front with _ | ⟨first, front⟩
      · exact alone
      · rw [List.cons_append, List.cons_append, steps_cons (by simp), steps_cons (by simp),
          List.filterMap_append, List.filterMap_append, last]
        simp [step?, isIdle]
    · have joined : (Path.mk (front ++ [d])).join s = ⟨front ++ [d] ++ [s]⟩ := by
        simp [join, blank]
      rw [joined]
      rcases front with _ | ⟨first, front⟩
      · rw [List.nil_append, List.singleton_append, steps_cons (by simp),
          steps_cons fun none => absurd none blank, last, List.filterMap_nil, List.append_nil]
      · rw [List.cons_append, List.cons_append, steps_cons (by simp), steps_cons (by simp),
          List.filterMap_append, last, List.append_assoc]

theorem steps_below (proper : FileSystem.Proper names) :
    (p.below names).steps = p.steps ++ names.map .name := by
  induction names generalizing p with
  | nil => exact (List.append_nil _).symm
  | cons s names ih =>
    obtain ⟨first, rest⟩ := List.forall_mem_cons.mp proper
    change ((p.join s).below names).steps = _
    rw [ih rest, steps_join first, List.append_assoc]
    rfl

theorem below_injective (proper : FileSystem.Proper names) (proper' : FileSystem.Proper names')
    (same : p.below names = p.below names') : names = names' := by
  have steps := congrArg Path.steps same
  rw [steps_below proper, steps_below proper', List.append_cancel_left_eq] at steps
  exact (List.map_inj_right fun _ _ => Step.name.inj).mp steps

/-! ## What a path adds to another -/

theorem filterMap_dropSteps (n : Nat) (ps : List String) :
    (dropSteps n ps).filterMap step? = (ps.filterMap step?).drop n := by
  induction ps generalizing n with
  | nil => cases n <;> simp [dropSteps]
  | cons d ps ih =>
    cases n with
    | zero => rfl
    | succ n =>
      rw [dropSteps]
      cases step : step? d with
      | none => rw [if_pos (step?_eq_none.mp step), ih, List.filterMap_cons_none step]
      | some st =>
        have moves : ¬isIdle d = true := fun idle => by simp [step?_eq_none.mpr idle] at step
        rw [if_neg moves, ih, List.filterMap_cons_some step, List.drop_succ_cons]

theorem steps_build_trim (ps : List String) :
    (build .none (trim ps)).steps = ps.filterMap step? := by
  obtain ⟨idles, idle, whole⟩ := dropWhile_idle ps
  obtain ⟨idles', idle', whole'⟩ := trimEnd_append (ps.dropWhile isIdle)
  have kept : (trim ps).filterMap step? = ps.filterMap step? := by
    rw [whole, whole', List.filterMap_append, List.filterMap_append, filterMap_idles idle,
      filterMap_idles idle', List.nil_append, List.append_nil, ← whole', ← whole]
    rfl
  rw [← kept]
  cases trimmed : trim ps with
  | nil => rfl
  | cons d ds =>
    have moves : isIdle d = false := by
      have head := List.head?_dropWhile_not isIdle ps
      rw [whole', ← trim, trimmed] at head
      exact head
    have marked : d ≠ "" ∧ d ≠ "." := by simpa [isIdle] using moves
    change (Path.mk (d :: ds)).steps = _
    rw [steps_cons fun none => absurd none marked.1, firstSteps, if_neg marked.1, if_neg marked.2]
    cases step : step? d <;> simp [step]

/-- A step that only a lead makes. -/
def Step.isMark : Step → Bool
  | root | here => true
  | up | name _ => false

/-- The first step tells the lead. -/
theorem leadSteps_lead (p : Path) :
    leadSteps p.lead = p.steps.head?.toList.filter Step.isMark := by
  unfold steps
  cases p.lead with
  | root => rfl
  | here => rfl
  | none =>
    rw [leadSteps, List.nil_append]
    cases first : (p.body.filterMap step?).head? with
    | none => rfl
    | some st =>
      obtain ⟨piece, -, step⟩ := List.mem_filterMap.mp (List.mem_of_head? first)
      have moves : st.isMark = false := by
        rcases FileSystem.step?_cases piece with none | up | ⟨s, named⟩
        · simp [none] at step
        · rw [← Option.some.inj (up.symm.trans step)]
          rfl
        · rw [← Option.some.inj (named.symm.trans step)]
          rfl
      simp [moves]

/-- What a path adds to another are the steps after those of the other. -/
theorem strip?_of_steps (h : p.steps = base.steps ++ rest) :
    ∃ r, strip? base p = some r ∧ r.steps = rest := by
  have starts : base.steps.isPrefixOf p.steps = true :=
    List.isPrefixOf_iff_prefix.mpr ⟨rest, h.symm⟩
  unfold strip?
  rw [if_pos starts]
  by_cases none : base.steps = []
  · rw [none, List.nil_append] at h
    exact ⟨p, by simp [none], h⟩
  · have same : leadSteps p.lead = leadSteps base.lead := by
      rw [leadSteps_lead, leadSteps_lead, h, List.head?_append_of_ne_nil _ none]
    have bodies : p.body.filterMap step? = base.body.filterMap step? ++ rest := by
      rw [steps, steps, same, List.append_assoc] at h
      exact List.append_cancel_left h
    have count : base.steps.length - (leadSteps base.lead).length =
        (base.body.filterMap step?).length := by
      rw [steps, List.length_append, Nat.add_sub_cancel_left]
    refine ⟨_, if_neg (by simpa using none), ?_⟩
    rw [steps_build_trim, filterMap_dropSteps, bodies, count, List.drop_left]

end Path

/-! ## Entries of a directory -/

namespace FileSystem

variable {fs : FileSystem} {place : Place} {e : Entry} {s : String}

/-- Each place has one entry. -/
def Keyed (fs : FileSystem) : Prop := (fs.entries.map (·.1)).Nodup

/-- A file system is sound if the directories of all its entries are there. -/
theorem sound_of_entries (here : fs.get? fs.here = some .directory)
    (parents : ∀ entry ∈ fs.entries, fs.get? entry.1.dropLast = some .directory) : fs.Sound := by
  refine ⟨here, fun place e there => ?_⟩
  by_cases root : place = []
  · rw [root]
    rfl
  · rw [get?, if_neg root] at there
    exact parents _ (mem_of_find? there)

theorem find?_of_mem {entries : List (Place × Entry)} (keyed : (entries.map (·.1)).Nodup)
    (listed : (place, e) ∈ entries) : find? place entries = some e := by
  induction entries with
  | nil => cases listed
  | cons entry entries ih =>
    obtain ⟨other, e'⟩ := entry
    obtain ⟨fresh, keyed⟩ := List.nodup_cons.mp keyed
    rw [find?]
    rcases List.mem_cons.mp listed with same | listed
    · obtain ⟨rfl, rfl⟩ := Prod.mk.inj same
      exact if_pos rfl
    · have apart : other ≠ place := by
        rintro rfl
        exact fresh (List.mem_map.mpr ⟨_, listed, rfl⟩)
      rw [if_neg apart, ih keyed listed]

theorem mem_entries_iff (keyed : fs.Keyed) (below : place ≠ []) :
    (place, e) ∈ fs.entries ↔ fs.get? place = some e := by
  rw [get?, if_neg below]
  exact ⟨find?_of_mem keyed, mem_of_find?⟩

theorem mem_below_iff {names : List String} : (names, e) ∈ fs.below place ↔
    names ≠ [] ∧ (place ++ names, e) ∈ fs.entries := by
  simp only [below, List.mem_map, List.mem_filter, Bool.and_eq_true, decide_eq_true_eq,
    List.isPrefixOf_iff_prefix, Prod.mk.injEq, Prod.exists]
  constructor
  · rintro ⟨q, e', ⟨listed, ⟨names', rfl⟩, more⟩, drops, rfl⟩
    rw [List.drop_left] at drops
    subst drops
    exact ⟨by simpa using more, listed⟩
  · rintro ⟨more, listed⟩
    exact ⟨_, e, ⟨listed, List.prefix_append .., by simpa using more⟩, List.drop_left .., rfl⟩

theorem mem_children_iff (keyed : fs.Keyed) :
    (s, e) ∈ fs.children place ↔ fs.get? (place ++ [s]) = some e := by
  rw [← mem_entries_iff keyed (by simp), children, List.mem_filterMap]
  constructor
  · rintro ⟨⟨names, e'⟩, listed, single⟩
    match names, single with
    | [s], rfl => exact (mem_below_iff.mp listed).2
  · intro listed
    exact ⟨([s], e), mem_below_iff.mpr ⟨by simp, listed⟩, rfl⟩

theorem pairwise_below (keyed : fs.Keyed) (place : Place) :
    (fs.below place).Pairwise fun a b => a.1 ≠ b.1 := by
  refine List.pairwise_map.mpr (((List.pairwise_map.mp keyed).filter _).imp_of_mem ?_)
  rintro ⟨q, e⟩ ⟨q', e'⟩ listed listed' apart same
  simp only [List.mem_filter, Bool.and_eq_true, List.isPrefixOf_iff_prefix] at listed listed'
  obtain ⟨-, ⟨names, rfl⟩, -⟩ := listed
  obtain ⟨-, ⟨names', rfl⟩, -⟩ := listed'
  dsimp only at same
  rw [List.drop_left, List.drop_left] at same
  exact apart (by rw [same])

/-- No name is twice in a directory. -/
theorem nodup_children (keyed : fs.Keyed) (place : Place) :
    ((fs.children place).map (·.1)).Nodup := by
  refine List.pairwise_map.mpr ((pairwise_below keyed place).filterMap _ ?_)
  rintro ⟨names, e⟩ ⟨names', e'⟩ apart c single c' single' same
  match names, names', single, single' with
  | [s], [s'], rfl, rfl => exact apart (congrArg (fun s => [s]) same)

/-- What is there is no deeper than there are entries. -/
theorem Sound.length_le (sound : fs.Sound) (there : fs.get? place = some e) :
    place.length ≤ fs.entries.length := by
  -- every directory on the way has an entry of its own
  have way : ((List.range place.length).map fun i => place.take (i + 1)) ⊆
      fs.entries.map (·.1) := by
    intro q listed
    obtain ⟨i, short, rfl⟩ := List.mem_map.mp listed
    have below := List.mem_range.mp short
    have filled : place.take (i + 1) ≠ [] := by
      rw [Ne, List.take_eq_nil_iff]
      rintro (zero | rfl)
      · cases zero
      · cases below
    obtain ⟨e', found⟩ : ∃ e', fs.get? (place.take (i + 1)) = some e' := by
      by_cases whole : place.drop (i + 1) = []
      · rw [← List.take_append_drop (i + 1) place, whole, List.append_nil] at there
        exact ⟨e, there⟩
      · rw [← List.take_append_drop (i + 1) place] at there
        exact ⟨.directory, sound.directory_of_below whole there⟩
    rw [get?, if_neg filled] at found
    exact List.mem_map_of_mem (mem_of_find? found)
  have apart : ((List.range place.length).map fun i => place.take (i + 1)).Nodup := by
    refine List.pairwise_map.mpr (List.pairwise_lt_range.imp_of_mem ?_)
    intro i j listed listed' before same
    have lengths := congrArg List.length same
    have short := List.mem_range.mp listed
    have short' := List.mem_range.mp listed'
    rw [List.length_take, List.length_take] at lengths
    omega
  simpa using (List.subperm_of_subset apart way).length_le

end FileSystem

end CodeSearch
