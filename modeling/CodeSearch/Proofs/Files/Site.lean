import CodeSearch.Proofs.Files.Detour

/-! # The site of a file

The site of a path is the directory that the path leads into, the name there and the pieces
behind the name. Files with other extensions stand beside it in the same directory.
-/

namespace CodeSearch

namespace FileSystem

variable {fs fs' mid after : FileSystem} {follow : Bool} {q : Place} {p : Path}
variable {name ext : String}

theorem locate_of_spelled (spelled : p.Spelled) :
    fs.locate follow p = resolve fs follow linkLimit (origin fs.here p).1 (origin fs.here p).2 := by
  obtain ⟨clear, filled, short⟩ := spelled
  simp [locate, clear, filled, short]

/-- The directory that a path with a file name leads into, and what is left of the path. -/
structure Site (fs : FileSystem) (p : Path) where
  dirs : List String
  name : String
  idles : List String
  links : Nat
  dir : Place
  named : p.fileName? = some name
  trimmed : Path.trimEnd p.body = dirs ++ [name]
  whole : p.body = dirs ++ name :: idles
  step : Path.step? name = some (.name name)
  idle : ∀ piece ∈ idles, Path.step? piece = none
  way : fs.Enters linkLimit (p.lead.base fs.here) (p.lead.dots ++ dirs) links dir

/-- A path has a site if it has a file name and its parent is there. -/
theorem exists_site (sound : fs.Sound) (h : p.fileName? = some name)
    (there : fs.HasParent p) : Nonempty (Site fs p) := by
  obtain ⟨dirs, trimmed, step⟩ := Path.fileName?_cases h
  obtain ⟨idles, idle, body⟩ := Path.trimEnd_append p.body
  have whole : p.body = dirs ++ name :: idles := by
    rw [body, trimmed]
    simp
  suffices way : ∃ m dir, fs.Enters linkLimit (p.lead.base fs.here) (p.lead.dots ++ dirs) m dir by
    obtain ⟨m, dir, way⟩ := way
    exact ⟨⟨dirs, name, idles, m, dir, h, trimmed, whole, step, idle, way⟩⟩
  by_cases filled : (Path.build p.lead (Path.trimEnd dirs)).toText = ""
  · obtain ⟨lead, none⟩ := Path.eq_nil_of_toText_build filled
    obtain ⟨idles', idle', start⟩ := Path.trimEnd_append dirs
    rw [none, List.nil_append] at start
    rw [lead, start]
    exact ⟨_, _, .idles idle'⟩
  · have found := (there _ (Path.parent?_eq trimmed)).resolve_left filled
    obtain ⟨-, m, dir, way⟩ := (isDirectory_iff sound).mp found
    exact ⟨m, dir, (Path.enters_parent trimmed filled).mp way⟩

namespace Site

variable (site : Site fs p)

/-- The place of the file. -/
def place : Place := site.dir ++ [site.name]

/-- The place of the file with another extension. -/
def beside (ext : String) : Place := site.dir ++ [Path.renamed site.name ext]

theorem beside_ne_place (other : p.extension? ≠ some ext) : site.beside ext ≠ site.place := by
  intro same
  rw [Path.extension?, site.named] at other
  have last := List.append_cancel_left same
  exact Path.renamed_ne other (List.cons.inj last).1

/-- The site stays while directories and links do. -/
def grow (grows : Grows fs fs') : Site fs' p :=
  { site with
    way := by
      rw [grows.here]
      exact site.way.grow grows }

theorem locate_own (spelled : p.Spelled) :
    fs.locate follow p = resolve fs follow site.links site.dir (site.name :: site.idles) := by
  rw [locate_of_spelled spelled, Path.origin_eq]
  change resolve fs follow linkLimit (p.lead.base fs.here) (p.lead.dots ++ p.body) = _
  rw [site.whole, ← List.append_assoc]
  exact site.way.resolve_append (.inl (List.cons_ne_nil _ _))

theorem locate_beside (long : 2 ≤ ext.length) (spelled : (p.withExtension ext).Spelled) :
    fs.locate follow (p.withExtension ext) =
      resolve fs follow site.links site.dir [Path.renamed site.name ext] := by
  have other : (Path.cut site.name).1 ++ "." ++ ext ≠ "." := by
    intro same
    have length := congrArg String.length same
    simp only [String.length_append] at length
    change _ + 1 + _ = 1 at length
    omega
  rw [locate_of_spelled spelled, Path.origin_withExtension site.named site.trimmed ext other]
  exact site.way.resolve_append (.inl (List.cons_ne_nil _ _))

theorem directory (sound : fs.Sound) : fs.get? site.dir = some .directory := by
  refine site.way.directory sound ?_
  cases p.lead with
  | root => exact get?_root
  | _ => exact sound.here

/-- A path behind whose name more pieces follow leads to directories only. -/
theorem idles_eq_nil (sound : fs.Sound) (located : fs.locate follow p = .ok q)
    (file : fs.get? q ≠ some .directory) : site.idles = [] := by
  by_contra more
  rw [site.locate_own (locate_ok.mp located).1, ← List.singleton_append] at located
  exact file (directory_of_idles sound (site.directory sound) site.idle more located)

theorem locate_place_iff (last : site.idles = []) :
    fs.locate false p = .ok q ↔
      p.Spelled ∧ ¬nameLimit < site.name.utf8ByteSize ∧ q = site.place := by
  constructor
  · intro located
    have spelled := (locate_ok.mp located).1
    rw [site.locate_own spelled, last, resolve_unfollowed site.step] at located
    split at located
    · cases located
    · rename_i short
      exact ⟨spelled, short, (Except.ok.inj located).symm⟩
  · rintro ⟨spelled, short, rfl⟩
    rw [site.locate_own spelled, last, resolve_unfollowed site.step, if_neg short]
    rfl

/-- A name beside a site is found whatever is there. -/
theorem locate_beside_iff (long : 2 ≤ ext.length) :
    fs.locate false (p.withExtension ext) = .ok q ↔ (p.withExtension ext).Spelled ∧
      ¬nameLimit < (Path.renamed site.name ext).utf8ByteSize ∧ q = site.beside ext := by
  constructor
  · intro located
    have spelled := (locate_ok.mp located).1
    rw [site.locate_beside long spelled, resolve_unfollowed (Path.step?_renamed long)] at located
    split at located
    · cases located
    · rename_i short
      exact ⟨spelled, short, (Except.ok.inj located).symm⟩
  · rintro ⟨spelled, short, rfl⟩
    rw [site.locate_beside long spelled, resolve_unfollowed (Path.step?_renamed long), if_neg short]
    rfl

/-- The way to the site does not go through a link beside it that leads to a file. -/
theorem no_detour_beside {k : Nat} {t : Path} {qs : List String} (sound : fs.Sound)
    (long : 2 ≤ ext.length) (located : fs.locate true (p.withExtension ext) = .ok q)
    (file : fs.get? q ≠ some .directory) (there : fs.get? (site.beside ext) = some (.link t))
    (le : site.links ≤ k) :
    ¬fs.Enters k (origin site.dir t).1 ((origin site.dir t).2 ++ qs) site.links site.dir := by
  intro detour
  rw [site.locate_beside long (locate_ok.mp located).1] at located
  rcases resolve_of_detour sound (site.directory sound) (Path.step?_renamed long) there le detour
    with ⟨r, found, directory⟩ | loop | refused
  · obtain rfl : q = r := Except.ok.inj (located.symm.trans found)
    exact file directory
  · exact absurd (located.symm.trans loop) nofun
  · exact absurd (located.symm.trans refused) nofun

/-- The way to the site does not go through the link there if it leads to a file or nowhere. -/
theorem no_detour_own {k : Nat} {t : Path} {qs : List String} (sound : fs.Sound)
    (last : site.idles = []) (spelled : p.Spelled)
    (found : fs.entry? p = .error .missing ∨ ∃ c, fs.entry? p = .ok (.file c))
    (there : fs.get? site.place = some (.link t)) (le : site.links ≤ k) :
    ¬fs.Enters k (origin site.dir t).1 ((origin site.dir t).2 ++ qs) site.links site.dir := by
  intro detour
  unfold entry? at found
  rw [site.locate_own spelled, last] at found
  rcases resolve_of_detour sound (site.directory sound) site.step there le detour
    with ⟨r, located, directory⟩ | loop | refused
  · simp [located, directory, Except.bind] at found
  · simp [loop, Except.bind] at found
  · simp [refused, Except.bind] at found

/-- The way to the site does not go through a link there. -/
def Blocked : Prop :=
  ∀ t k qs, fs.get? site.place = some (.link t) →
    ¬fs.Enters k (origin site.dir t).1 ((origin site.dir t).2 ++ qs) site.links site.dir

theorem blocked_of_found (sound : fs.Sound) (last : site.idles = []) (spelled : p.Spelled)
    (found : fs.entry? p = .error .missing ∨ ∃ c, fs.entry? p = .ok (.file c)) : site.Blocked :=
  fun _ _ _ link way => site.no_detour_own sound last spelled found link way.le way

end Site

/-- What is left after a file was written beside another and moved over it. -/
structure Moved (site : Site fs p) (ext : String) (mid after : FileSystem) : Prop where
  sound : after.Sound
  last : site.idles = []
  spelled : p.Spelled
  short : ¬nameLimit < site.name.utf8ByteSize
  own : after.get? site.place = mid.get? (site.beside ext)
  beside : after.get? (site.beside ext) = none
  way : after.Enters linkLimit (p.lead.base after.here) (p.lead.dots ++ site.dirs) site.links
    site.dir

/-- The site is still there. -/
def Moved.site {site : Site fs p} (moved : Moved site ext mid after) : Site after p :=
  { site with way := moved.way }

theorem Moved.entry? {site : Site fs p} {c : Bytes} (moved : Moved site ext mid after)
    (there : mid.get? (site.beside ext) = some (.file c)) : after.entry? p = .ok (.file c) := by
  have own : after.get? (site.dir ++ [site.name]) = some (.file c) := moved.own.trans there
  have located : after.locate true p = .ok site.place := by
    rw [moved.site.locate_own moved.spelled]
    change resolve after true site.links site.dir (site.name :: site.idles) = _
    rw [moved.last, resolve_name site.step, if_neg moved.short, own]
    rfl
  simp [FileSystem.entry?, located, Except.bind, Site.place, own]

/-- The way to a site stays when nothing but the places of the file and beside it changes. -/
theorem Site.keep (site : Site fs p) (sound : fs.Sound) (long : 2 ≤ ext.length)
    (blocked : site.Blocked) (located : fs.locate true (p.withExtension ext) = .ok q)
    (file : fs.get? q ≠ some .directory) (here : after.here = fs.here)
    (directories : ∀ x, fs.get? x = some .directory → after.get? x = some .directory)
    (links : ∀ x t, ¬(x = site.beside ext ∨ x = site.place) → fs.get? x = some (.link t) →
      after.get? x = some (.link t)) :
    after.Enters linkLimit (p.lead.base after.here) (p.lead.dots ++ site.dirs) site.links
      site.dir := by
  rw [here]
  -- A way that does not stay goes through one of the two links that may have gone.
  rcases site.way.keep _ directories links with way | ⟨x, t, k, qs, rfl | rfl, link, le, detour⟩
  · exact way
  · rw [Site.beside, List.dropLast_concat] at detour
    exact absurd detour (site.no_detour_beside sound long located file link le)
  · rw [Site.place, List.dropLast_concat] at detour
    exact absurd detour (blocked t k qs link)

theorem get?_erase_set {r : Place} (sound : fs.Sound) (away : r ≠ [])
    (free : fs.get? q ≠ some .directory) (e : Entry) (x : Place) :
    ((fs.erase q).set r e).get? x =
      if x = r then some e else if x = q then none else fs.get? x := by
  rw [get?_set away, get?_erase sound free]

theorem moved {content : Bytes} (site : Site fs p) (sound : fs.Sound)
    (other : p.extension? ≠ some ext) (long : 2 ≤ ext.length)
    (found : fs.entry? p = .error .missing ∨ ∃ c, fs.entry? p = .ok (.file c))
    (written : fs.write (p.withExtension ext) content = .ok mid)
    (renamed : mid.rename (p.withExtension ext) p = .ok after) : Moved site ext mid after := by
  obtain ⟨q, located, file, plain, into, rfl⟩ := write_ok sound written
  have grows := grows_set file plain (.file content)
  have sound' := sound.set file into (.file content)
  obtain ⟨old, new, e, source, target, there, moves, kept, above, rfl⟩ := rename_ok sound' renamed
  have last : site.idles = [] := (site.grow grows).idles_eq_nil sound' target kept
  obtain ⟨-, -, rfl⟩ := ((site.grow grows).locate_beside_iff long).mp source
  obtain ⟨spelled, short, rfl⟩ := ((site.grow grows).locate_place_iff last).mp target
  change (fs.set q (.file content)).get? (site.beside ext) = some e at there
  change (fs.set q (.file content)).get? site.place ≠ some .directory at kept
  change (fs.set q (.file content)).get? site.place.dropLast = _ at above
  have apart : site.beside ext ≠ site.place := site.beside_ne_place other
  have free : (fs.set q (.file content)).get? (site.beside ext) ≠ some .directory := by
    simpa [there] using moves
  change Moved site ext (fs.set q (.file content))
    (if site.beside ext = site.place then fs.set q (.file content)
      else ((fs.set q (.file content)).erase (site.beside ext)).set site.place e)
  rw [if_neg apart]
  have same : (fs.set q (.file content)).here = fs.here := rfl
  generalize fs.set q (.file content) = mid at *
  have away : site.place ≠ [] := by simp [Site.place]
  have now := get?_erase_set sound' away free e
  have erased := get?_erase sound' free
  have vacant : (mid.erase (site.beside ext)).get? site.place ≠ some .directory := by
    rwa [erased, if_neg apart.symm]
  refine ⟨(sound'.erase free).set vacant ?_ e, last, spelled, short, ?_, ?_, ?_⟩
  · rw [erased, if_neg (ne_of_get? free above)]
    exact above
  · rw [now, if_pos rfl, there]
  · rw [now, if_neg apart, if_pos rfl]
  · have here : ((mid.erase (site.beside ext)).set site.place e).here = fs.here := same
    have blocked := site.blocked_of_found sound last spelled found
    apply site.keep sound long blocked located file here
    · intro x hx
      have still := grows.directory x hx
      rw [now, if_neg (ne_of_get? kept still), if_neg (ne_of_get? free still)]
      exact still
    · intro x t neither hx
      rw [now, if_neg fun h => neither (.inr h), if_neg fun h => neither (.inl h)]
      exact grows.link x t hx

end FileSystem

end CodeSearch
