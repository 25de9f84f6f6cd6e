import CodeSearch.Proofs.Files.Sound

/-! # The parts of a path

A path with a file name is a way to a directory, the name, and pieces that are no steps. The
path with another extension goes the same way, and so does the parent.
-/

namespace CodeSearch

namespace Path

/-- Where a path with a lead starts. -/
def Lead.base (here : Place) : Lead → Place
  | root => []
  | _ => here

/-- The pieces of a lead that paths are followed through. -/
def Lead.dots : Lead → List String
  | here => ["."]
  | _ => []

variable {p up : Path} {here : Place} {l : Lead} {ps dirs : List String} {last name : String}

theorem step?_eq_none {piece : String} : step? piece = none ↔ isIdle piece = true := by
  unfold step?
  split
  · simp [*]
  · rename_i h
    simp only [h]
    split <;> simp

theorem step?_dots : ∀ piece ∈ l.dots, step? piece = none := by
  cases l <;> simp [Lead.dots, step?, isIdle]

theorem origin_eq (p : Path) (here : Place) :
    FileSystem.origin here p = (p.lead.base here, p.lead.dots ++ p.body) := by
  obtain ⟨pieces⟩ := p
  unfold FileSystem.origin isAbsolute body lead
  match pieces with
  | [] => rfl
  | [a] =>
    by_cases dot : a = "."
    · subst dot
      rfl
    · simp [dot, Lead.base, Lead.dots]
  | a :: b :: rest =>
    by_cases root : a = ""
    · subst root
      rfl
    · by_cases dot : a = "."
      · subst dot
        rfl
      · simp [root, dot, Lead.base, Lead.dots]

/-! ## The last step -/

theorem dropWhile_idle (ps : List String) :
    ∃ idles, (∀ piece ∈ idles, step? piece = none) ∧ ps = idles ++ ps.dropWhile isIdle := by
  refine ⟨ps.takeWhile isIdle, fun piece h => ?_, (List.takeWhile_append_dropWhile ..).symm⟩
  exact step?_eq_none.mpr (List.all_eq_true.mp List.all_takeWhile piece h)

/-- Behind the last step are only pieces that are no steps. -/
theorem trimEnd_append (ps : List String) :
    ∃ idles, (∀ piece ∈ idles, step? piece = none) ∧ ps = trimEnd ps ++ idles := by
  obtain ⟨idles, idle, whole⟩ := dropWhile_idle ps.reverse
  refine ⟨idles.reverse, fun piece h => idle piece (List.mem_reverse.mp h), ?_⟩
  rw [trimEnd, ← List.reverse_append, ← whole, List.reverse_reverse]

theorem trimEnd_cases (ps : List String) :
    trimEnd ps = [] ∨ ∃ dirs last, trimEnd ps = dirs ++ [last] ∧ isIdle last = false := by
  unfold trimEnd
  cases trimmed : ps.reverse.dropWhile isIdle with
  | nil => exact .inl rfl
  | cons last rest =>
    right
    refine ⟨rest.reverse, last, by simp, ?_⟩
    have head := List.head?_dropWhile_not isIdle ps.reverse
    rw [trimmed] at head
    simpa using head

theorem filterMap_idles (idle : ∀ piece ∈ ps, step? piece = none) : ps.filterMap step? = [] :=
  List.filterMap_eq_nil_iff.mpr idle

theorem step?_eq_name {piece s : String} (h : step? piece = some (.name s)) : s = piece := by
  unfold step? at h
  split at h
  · cases h
  · split at h
    · cases h
    · cases h
      rfl

/-- The last step of a body decides on the file name. -/
theorem getLast?_steps (h : trimEnd p.body = dirs ++ [last]) (idle : isIdle last = false) :
    p.steps.getLast? = step? last := by
  obtain ⟨idles, none, whole⟩ := trimEnd_append p.body
  have named : ∃ st, step? last = some st := by
    cases found : step? last with
    | none => simp [step?_eq_none.mp found] at idle
    | some st => exact ⟨st, rfl⟩
  obtain ⟨st, found⟩ := named
  rw [steps, whole, h, List.filterMap_append, filterMap_idles none, List.append_nil,
    List.filterMap_append, ← List.append_assoc]
  simp [found]

theorem steps_eq_lead (h : trimEnd p.body = []) : p.steps = leadSteps p.lead := by
  obtain ⟨idles, none, whole⟩ := trimEnd_append p.body
  rw [h, List.nil_append] at whole
  rw [steps, whole, filterMap_idles none, List.append_nil]

/-- What a path with a file name consists of. -/
theorem fileName?_cases (h : p.fileName? = some name) :
    ∃ dirs, trimEnd p.body = dirs ++ [name] ∧ step? name = some (.name name) := by
  rcases trimEnd_cases p.body with none | ⟨dirs, last, body, idle⟩
  · rw [fileName?, steps_eq_lead none] at h
    cases lead : p.lead <;> simp [lead, leadSteps] at h
  · rw [fileName?, getLast?_steps body idle] at h
    cases step : step? last with
    | none => simp [step] at h
    | some st =>
      cases st with
      | name s =>
        obtain rfl := step?_eq_name step
        simp only [step] at h
        cases h
        exact ⟨dirs, body, step⟩
      | _ => simp [step] at h

/-- A path without a file name ends where it starts or goes up at the end. -/
theorem trimEnd_of_fileName? (h : p.fileName? = none) :
    trimEnd p.body = [] ∨ ∃ dirs last, trimEnd p.body = dirs ++ [last] ∧ step? last = some .up := by
  rcases trimEnd_cases p.body with none | ⟨dirs, last, body, idle⟩
  · exact .inl none
  · refine .inr ⟨dirs, last, body, ?_⟩
    rw [fileName?, getLast?_steps body idle] at h
    rcases FileSystem.step?_cases last with none | up | ⟨s, named⟩
    · simp [step?_eq_none.mp none] at idle
    · exact up
    · simp [named] at h

/-! ## The same way -/

theorem lead_of_body (h : p.lead = .none) : p.pieces = p.body := by
  rw [body, h]

/-- A body with a lead is followed behind the lead. -/
theorem origin_build (filled : ps ≠ []) (kept : l = .none → (Path.mk ps).lead = .none) :
    FileSystem.origin here (build l ps) = (l.base here, l.dots ++ ps) := by
  rw [origin_eq]
  obtain ⟨piece, rest, rfl⟩ := List.exists_cons_of_ne_nil filled
  cases l with
  | root => rfl
  | here => rfl
  | none =>
    have same : build .none (piece :: rest) = ⟨piece :: rest⟩ := rfl
    rw [same, ← lead_of_body (kept rfl), kept rfl]

theorem lead_cons (d : String) (ds : List String) :
    (Path.mk (d :: ds)).lead =
      if d = "" ∧ ds ≠ [] then .root else if d = "." then .here else .none := by
  by_cases dot : d = "."
  · subst dot
    cases ds <;> rfl
  · by_cases root : d = ""
    · subst root
      cases ds <;> rfl
    · cases ds <;> simp [lead, dot, root]

/-- The first pieces of a path without a lead have none. -/
theorem lead_eq_none {xs ys : List String} (h : p.lead = .none) (pieces : p.body = xs ++ ys)
    (filled : xs ≠ []) (more : ys ≠ []) (zs : List String) : (Path.mk (xs ++ zs)).lead = .none := by
  obtain ⟨d, ds, rfl⟩ := List.exists_cons_of_ne_nil filled
  have same : p = ⟨d :: (ds ++ ys)⟩ := congrArg Path.mk ((lead_of_body h).trans pieces)
  rw [same, lead_cons] at h
  have longer : ds ++ ys ≠ [] := by simp [more]
  have unmarked : d ≠ "" ∧ d ≠ "." := by
    constructor
    · rintro rfl
      simp [longer] at h
    · rintro rfl
      simp at h
  rw [List.cons_append, lead_cons]
  simp [unmarked]

/-- The lead of a path stays that of its first pieces. -/
theorem lead_none_of_body (h : p.lead = .none) (body : trimEnd p.body = dirs ++ [last])
    (other : String) (named : other ≠ ".") : (Path.mk (dirs ++ [other])).lead = .none := by
  obtain ⟨idles, -, whole⟩ := trimEnd_append p.body
  rw [body, List.append_assoc] at whole
  by_cases filled : dirs = []
  · simp [filled, lead_cons, named]
  · exact lead_eq_none h whole filled (by simp) [other]

theorem origin_withExtension (h : p.fileName? = some name)
    (body : trimEnd p.body = dirs ++ [name]) (ext : String)
    (named : (cut name).1 ++ "." ++ ext ≠ ".") :
    FileSystem.origin here (p.withExtension ext) =
      (p.lead.base here, (p.lead.dots ++ dirs) ++ [(cut name).1 ++ "." ++ ext]) := by
  have same : p.withExtension ext = build p.lead (dirs ++ [(cut name).1 ++ "." ++ ext]) := by
    simp [withExtension, h, body]
  rw [same, origin_build (by simp) fun none => lead_none_of_body none body _ named,
    List.append_assoc]

theorem parent?_eq (body : trimEnd p.body = dirs ++ [last]) :
    p.parent? = some (build p.lead (trimEnd dirs)) := by
  unfold parent?
  rw [body]
  cases lead : p.lead with
  | here =>
    split
    · simp_all
    · simp_all
    · simp_all
  | _ => simp

theorem parent?_cases (h : p.parent? = some up) :
    (∃ dirs last, trimEnd p.body = dirs ++ [last] ∧ up = build p.lead (trimEnd dirs)) ∨
      up = ⟨[""]⟩ := by
  rcases trimEnd_cases p.body with none | ⟨dirs, last, body, -⟩
  · right
    unfold parent? at h
    rw [none] at h
    cases lead : p.lead <;> simp_all
  · rw [parent?_eq body] at h
    exact .inl ⟨dirs, last, body, (Option.some.inj h).symm⟩

/-! ## Texts -/

theorem toText_cons (a b : String) (ps : List String) :
    (Path.mk (a :: b :: ps)).toText = (Path.mk ((a ++ "/" ++ b) :: ps)).toText := rfl

theorem toText_cons_eq (a : String) (ps : List String) :
    ∃ r, (Path.mk (a :: ps)).toText = a ++ r := by
  induction ps generalizing a with
  | nil => exact ⟨"", String.append_empty.symm⟩
  | cons b ps ih =>
    obtain ⟨r, rest⟩ := ih (a ++ "/" ++ b)
    exact ⟨"/" ++ b ++ r, by rw [toText_cons, rest]; simp [String.append_assoc]⟩

/-- The text of a path starts with the text of its first pieces. -/
theorem toText_append (filled : ps ≠ []) (qs : List String) :
    ∃ r, (Path.mk (ps ++ qs)).toText = (Path.mk ps).toText ++ r := by
  obtain ⟨a, ps, rfl⟩ := List.exists_cons_of_ne_nil filled
  clear filled
  induction ps generalizing a with
  | nil => exact toText_cons_eq a qs
  | cons b ps ih => exact ih (a ++ "/" ++ b)

/-- The pieces of a path before its body. -/
def Lead.marks : Lead → List String
  | .root => [""]
  | .here => ["."]
  | .none => []

theorem pieces_eq (p : Path) : p.pieces = p.lead.marks ++ p.body := by
  obtain ⟨pieces⟩ := p
  rcases pieces with _ | ⟨d, ds⟩
  · rfl
  · rw [body, lead_cons]
    by_cases root : d = "" ∧ ds ≠ []
    · rw [if_pos root, root.1]
      rfl
    · rw [if_neg root]
      by_cases dot : d = "."
      · rw [if_pos dot, dot]
        rfl
      · rw [if_neg dot]
        rfl

/-- The text of a path starts with the text of its parent. -/
theorem toText_parent (body : trimEnd p.body = dirs ++ [last]) :
    ∃ r, p.toText = (build p.lead (trimEnd dirs)).toText ++ r := by
  obtain ⟨idles, -, whole⟩ := trimEnd_append p.body
  obtain ⟨idles', -, first⟩ := trimEnd_append dirs
  have pieces := pieces_eq p
  rw [body, first] at whole
  have same : p = ⟨p.lead.marks ++ p.body⟩ := congrArg Path.mk pieces
  rw [whole] at same
  generalize trimEnd dirs = front at *
  generalize p.lead = l at same
  rcases front with _ | ⟨d, front⟩
  · cases l with
    | root =>
      have filled : [] ++ idles' ++ [last] ++ idles ≠ [] := by simp
      obtain ⟨b, bs, rest⟩ := List.exists_cons_of_ne_nil filled
      obtain ⟨r, text⟩ := toText_cons_eq ("" ++ "/" ++ b) bs
      rw [same, rest]
      exact ⟨b ++ r, text.trans (String.append_assoc ..)⟩
    | here =>
      have filled : Lead.here.marks ≠ [] := by decide
      rw [same]
      exact toText_append filled _
    | none => exact ⟨p.toText, String.empty_append.symm⟩
  · have longer : p = ⟨(l.marks ++ d :: front) ++ (idles' ++ [last] ++ idles)⟩ := by
      rw [same]
      simp
    have filled : l.marks ++ d :: front ≠ [] := by simp
    rw [longer]
    cases l <;> exact toText_append filled _

/-- No file system refuses the text of the path. -/
def Spelled (p : Path) : Prop :=
  '\x00' ∉ p.toText.toList ∧ p.toText ≠ "" ∧
    ¬FileSystem.pathLimit ≤ p.toText.utf8ByteSize

theorem Spelled.parent (h : p.Spelled) (body : trimEnd p.body = dirs ++ [last])
    (filled : (build p.lead (trimEnd dirs)).toText ≠ "") :
    (build p.lead (trimEnd dirs)).Spelled := by
  obtain ⟨r, text⟩ := toText_parent body
  obtain ⟨clear, -, short⟩ := h
  rw [text] at clear short
  refine ⟨?_, filled, ?_⟩
  · simp_all
  · rw [String.utf8ByteSize_append] at short
    omega

theorem toText_ne_nil {a b : String} : (Path.mk (a :: b :: ps)).toText ≠ "" := by
  obtain ⟨r, text⟩ := toText_cons_eq (a ++ "/" ++ b) ps
  rw [toText_cons, text]
  intro none
  have chars := congrArg String.toList none
  simp at chars

/-- A parent without a text is the place that paths start from. -/
theorem eq_nil_of_toText_build (h : (build l (trimEnd ps)).toText = "") :
    l = .none ∧ trimEnd ps = [] := by
  rcases trimEnd_cases ps with none | ⟨dirs, last, body, idle⟩
  · rw [none] at h ⊢
    cases l with
    | none => exact ⟨rfl, rfl⟩
    | root => exact absurd h (by decide)
    | here => exact absurd h (by decide)
  · exfalso
    have named : last ≠ "" := by
      rintro rfl
      simp [isIdle] at idle
    rw [body] at h
    rcases dirs with _ | ⟨d, dirs⟩
    · cases l with
      | none => exact named h
      | _ => exact toText_ne_nil h
    · cases l with
      | none =>
        rcases dirs with _ | ⟨d', dirs⟩ <;> exact toText_ne_nil h
      | _ => exact toText_ne_nil h

/-- A path without the slashes at its end, unless it is nothing else. -/
def slashless (p : Path) : Path :=
  let bare : Path := ⟨(p.pieces.reverse.dropWhile (· = "")).reverse⟩
  if bare.pieces.isEmpty || bare.pieces = [""] then p else bare

theorem slashless_build : (build l (trimEnd ps)).slashless = build l (trimEnd ps) := by
  rcases trimEnd_cases ps with none | ⟨dirs, last, body, idle⟩
  · rw [none]
    cases l <;> decide
  · rw [body]
    have named : last ≠ "" := by
      rintro rfl
      simp [isIdle] at idle
    have ends : ∃ front, (build l (dirs ++ [last])).pieces = front ++ [last] := by
      cases l with
      | root => exact ⟨"" :: dirs, by cases dirs <;> rfl⟩
      | here => exact ⟨"." :: dirs, rfl⟩
      | none => exact ⟨dirs, by cases dirs <;> rfl⟩
    obtain ⟨front, pieces⟩ := ends
    have kept : ((build l (dirs ++ [last])).pieces.reverse.dropWhile (· = "")).reverse =
        (build l (dirs ++ [last])).pieces := by
      rw [pieces]
      simp [named]
    unfold slashless
    rw [kept]
    dsimp only
    split <;> rfl

theorem slashless_parent (h : p.parent? = some up) : up.slashless = up := by
  rcases parent?_cases h with ⟨dirs, last, -, rfl⟩ | rfl
  · exact slashless_build
  · decide

theorem enters_append_idles_iff {fs : FileSystem} {n m : Nat} {base q : Place} {idles : List String}
    (idle : ∀ piece ∈ idles, step? piece = none) :
    fs.Enters n base (ps ++ idles) m q ↔ fs.Enters n base ps m q := by
  constructor
  · intro way
    obtain ⟨k, r, first, rest⟩ := way.split
    obtain ⟨rfl, rfl⟩ := rest.eq_of_idles idle
    exact first
  · intro way
    exact way.append (.idles idle)

/-- The way to the parent is the way to the directory of the last step. -/
theorem enters_parent {fs : FileSystem} {n m : Nat} {q : Place}
    (h : trimEnd p.body = dirs ++ [last])
    (filled : (build p.lead (trimEnd dirs)).toText ≠ "") :
    fs.Enters n (FileSystem.origin here (build p.lead (trimEnd dirs))).1
        (FileSystem.origin here (build p.lead (trimEnd dirs))).2 m q ↔
      fs.Enters n (p.lead.base here) (p.lead.dots ++ dirs) m q := by
  obtain ⟨idles, idle, whole⟩ := trimEnd_append dirs
  by_cases none : trimEnd dirs = []
  · rw [none, List.nil_append] at whole
    rw [none] at filled ⊢
    rw [whole, enters_append_idles_iff idle]
    cases lead : p.lead with
    | none => exact absurd rfl (lead ▸ filled)
    | root =>
      have blank : ∀ piece ∈ [""], step? piece = .none := by decide
      have way : fs.Enters n [] ([] ++ [""]) m q ↔ fs.Enters n [] [] m q :=
        enters_append_idles_iff blank
      exact way
    | here => exact Iff.rfl
  · obtain ⟨idles', -, body⟩ := trimEnd_append p.body
    have kept : p.lead = .none → (Path.mk (trimEnd dirs)).lead = .none := by
      intro lead
      have pieces : p.body = trimEnd dirs ++ (idles ++ [last] ++ idles') := by
        rw [body, h]
        conv_lhs => rw [whole]
        simp
      rw [← List.append_nil (trimEnd dirs)]
      exact lead_eq_none lead pieces none (by simp) []
    rw [origin_build none kept]
    conv_rhs => rw [whole]
    rw [← List.append_assoc, enters_append_idles_iff idle]

end Path

end CodeSearch
