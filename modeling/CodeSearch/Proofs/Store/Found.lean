import CodeSearch.Proofs.Files.Circle
import CodeSearch.Proofs.Store.Replace

/-! # What is found after a write

Whatever links stand in the way, the path of a snapshot leads to what was written after a write that
went well, or round in a circle. After one that failed it leads there or where it led before.
-/

namespace CodeSearch

namespace FileSystem

variable {fs fs' : FileSystem} {n m : Nat} {base q new : Place}
variable {ps : List String} {p t : Path} {b c : Bytes}

/-- What is there is a file, or nothing is. -/
structure Plain (fs : FileSystem) (q : Place) : Prop where
  file : fs.get? q ≠ some .directory
  unlinked : ∀ t, fs.get? q ≠ some (.link t)

theorem Plain.ne_nil (plain : fs.Plain q) : q ≠ [] := by
  rintro rfl
  exact plain.file get?_root

/-- All directories and links were there before, except perhaps for one link. -/
structure Inherits (new : Place) (t : Path) (fs fs' : FileSystem) : Prop where
  directory : ∀ x, fs'.get? x = some .directory → fs.get? x = some .directory
  link : ∀ x u, fs'.get? x = some (.link u) →
    fs.get? x = some (.link u) ∨ x = new ∧ u = t ∧ fs'.get? new = some (.link t)

/-- A way was there before, or what is left of it behind the new link was. -/
theorem Enters.inherited (inherits : Inherits new t fs fs') (h : Enters fs' n base ps m q) :
    Enters fs n base ps m q ∨ fs'.get? new = some (.link t) ∧ ∃ k qs,
      Enters fs k (origin new.dropLast t).1 ((origin new.dropLast t).2 ++ qs) m q := by
  induction h with
  | nil n base => exact .inl (.nil n base)
  | idle h _ ih => exact ih.imp_left (.idle h)
  | up h _ ih => exact ih.imp_left (.up h)
  | down h short here _ ih => exact ih.imp_left (.down h short (inherits.directory _ here))
  | @jump n _ _ _ _ _ ps _ h short here _ ih =>
    rcases ih with way | behind
    · rcases inherits.link _ _ here with link | ⟨rfl, rfl, there⟩
      · exact .inl (.jump h short link way)
      · refine .inr ⟨there, n, ps, ?_⟩
        rwa [List.dropLast_concat]
    · exact .inr behind

/-- A file that is put where no directory or link is brings no directories or links. -/
theorem grows_of_set (plain : fs.Plain q) (c : Bytes) : Grows (fs.set q (.file c)) fs := by
  refine ⟨rfl, fun x there => ?_, fun x u there => ?_⟩ <;>
  · rw [get?_set plain.ne_nil] at there
    split at there
    · cases there
    · exact there

/-- What is found when a file was put somewhere is that file, or was found before. -/
theorem found_of_set (plain : fs.Plain q)
    (found : FileSystem.entry? (fs.set q (.file c)) p = .ok (.file b)) :
    b = c ∨ fs.entry? p = .ok (.file b) := by
  obtain ⟨r, located, there⟩ := entry?_ok.mp found
  rw [get?_set plain.ne_nil] at there
  split at there
  · exact .inl (Entry.file.inj (Option.some.inj there)).symm
  · have before := locate_grow (grows_of_set plain c) (by simp [there]) (by simp [there]) located
    exact .inr (entry?_ok.mpr ⟨r, before, there⟩)

end FileSystem

namespace Store

open FileSystem

variable {fs h : FileSystem} {p : Path} {r : Except StoreError Unit} {b c : Bytes}

/-- No way to the site of a snapshot goes through a link there. -/
def Firm (p : Path) (fs : FileSystem) : Prop :=
  ∀ name, p.fileName? = some name →
    ∃ site : fs.Site p, p.Spelled → site.idles = [] → site.Blocked

theorem firm_of_found (sound : fs.Sound) (parents : fs.HasParent p)
    (found : fs.entry? p = .error .missing ∨ ∃ c, fs.entry? p = .ok (.file c)) : Firm p fs := by
  intro name named
  obtain ⟨site⟩ := exists_site sound named parents
  exact ⟨site, fun spelled last => site.blocked_of_found sound last spelled found⟩

theorem Firm.set {q : Place} (firm : Firm p fs) (plain : fs.Plain q) :
    Firm p (fs.set q (.file c)) := by
  intro name named
  obtain ⟨site, blocked⟩ := firm name named
  refine ⟨site.grow (grows_set plain.file plain.unlinked _), fun spelled last t k qs link way => ?_⟩
  rw [get?_set plain.ne_nil] at link
  split at link
  · cases link
  · exact blocked spelled last t k qs link (way.grow (grows_of_set plain c))

/-- A write that went well: the bytes are behind what stood beside the site, and that was moved to
the site. -/
structure Placed (site : fs.Site p) (c : Bytes) (q : Place) (e : Entry) (after : FileSystem) :
    Prop where
  located : fs.locate true (p.withExtension "json.tmp") = .ok q
  plain : fs.Plain q
  written : (fs.set q (.file c)).Sound
  there : (fs.set q (.file c)).get? (site.beside "json.tmp") = some e
  file : e ≠ .directory
  kept : (fs.set q (.file c)).get? site.place ≠ some .directory
  last : site.idles = []
  spelled : p.Spelled
  short : ¬nameLimit < site.name.utf8ByteSize
  get? : ∀ x, after.get? x = if x = site.place then some e else
    if x = site.beside "json.tmp" then none else (fs.set q (.file c)).get? x
  here : after.here = fs.here
  sound : after.Sound

/-- What comes of a write to a site. -/
theorem placed_of_put (sound : fs.Sound) (run : put p c fs = (.ok (), h)) :
    (∃ name, p.fileName? = some name) ∧ ∀ site : fs.Site p, ∃ q e, Placed site c q e h := by
  rcases put_cases run with ⟨e, failed, -⟩ | ⟨mid, wrote, moves⟩
  · cases failed
  · rcases StoreAction.change_cases moves with ⟨-, renamed⟩ | ⟨e, failed, -⟩
    · obtain ⟨q, located, file, plain, into, rfl⟩ := write_ok sound wrote
      have grows := grows_set file plain (.file c)
      have written := sound.set file into (.file c)
      obtain ⟨old, new, e, source, target, there, file', kept, above, rfl⟩ :=
        rename_ok written renamed
      refine ⟨fileName?_of_locate written target kept, fun site => ?_⟩
      have last : site.idles = [] := (site.grow grows).idles_eq_nil written target kept
      obtain ⟨-, -, rfl⟩ := ((site.grow grows).locate_beside_iff tmp_long).mp source
      obtain ⟨spelled, short, rfl⟩ := ((site.grow grows).locate_place_iff last).mp target
      have apart : site.beside "json.tmp" ≠ site.place := site.beside_ne_place extension?_ne_tmp
      have away : site.place ≠ [] := by simp [Site.place]
      have free : (fs.set q (.file c)).get? (site.beside "json.tmp") ≠ some .directory :=
        fun directory => file' (Option.some.inj (there.symm.trans directory))
      have erased := get?_erase written free
      have vacant : ((fs.set q (.file c)).erase (site.beside "json.tmp")).get? site.place ≠
          some .directory := by
        rw [erased, if_neg apart.symm]
        exact kept
      have into' : ((fs.set q (.file c)).erase (site.beside "json.tmp")).get?
          site.place.dropLast = some .directory := by
        rw [erased]
        exact (if_neg (ne_of_get? free above)).trans above
      change ∃ q' e', Placed site c q' e' (if site.beside "json.tmp" = site.place then _ else _)
      rw [if_neg apart]
      exact ⟨q, e, located, ⟨file, plain⟩, written, there, file', kept, last, spelled, short,
        get?_erase_set written away free e, rfl, (written.erase free).set vacant into' e⟩
    · cases failed

/-- A write that failed has put the bytes in a file, or changed nothing. -/
theorem set_of_put_error (sound : fs.Sound) (run : put p c fs = (r, h)) (failed : r ≠ .ok ()) :
    h = fs ∨ ∃ q, fs.Plain q ∧ h = fs.set q (.file c) := by
  rcases put_cases run with ⟨e, -, rfl⟩ | ⟨mid, wrote, moves⟩
  · exact .inl rfl
  · rcases StoreAction.change_cases moves with ⟨rfl, -⟩ | ⟨e, -, -, rfl⟩
    · exact absurd rfl failed
    · obtain ⟨q, -, file, plain, -, rfl⟩ := write_ok sound wrote
      exact .inr ⟨q, ⟨file, plain⟩, rfl⟩

namespace Placed

variable {site : fs.Site p} {q : Place} {e : Entry} {t : Path}

theorem grows (placed : Placed site c q e h) : Grows fs (fs.set q (.file c)) :=
  grows_set placed.plain.file placed.plain.unlinked _

theorem bytes (placed : Placed site c q e h) : (fs.set q (.file c)).get? q = some (.file c) := by
  rw [get?_set placed.plain.ne_nil, if_pos rfl]

theorem located_after (placed : Placed site c q e h) :
    (fs.set q (.file c)).locate true (p.withExtension "json.tmp") = .ok q :=
  locate_grow placed.grows (by simp [placed.bytes]) (by simp [placed.bytes]) placed.located

theorem inherits (placed : Placed site c q e h) (link : ∀ u, e = .link u → u = t) :
    Inherits site.place t (fs.set q (.file c)) h := by
  refine ⟨fun x there => ?_, fun x u there => ?_⟩
  · rw [placed.get?] at there
    split at there
    · exact absurd (Option.some.inj there) placed.file
    · split at there
      · cases there
      · exact there
  · rw [placed.get?] at there
    split at there
    · rename_i same
      obtain rfl := link u (Option.some.inj there)
      exact .inr ⟨same, rfl, by rw [placed.get?, if_pos rfl, there]⟩
    · split at there
      · cases there
      · exact .inl there

/-- A link beside the site led to the bytes. -/
theorem behind (placed : Placed site c q (.link t) h) : ∃ n, site.links = n + 1 ∧
    resolve (fs.set q (.file c)) true n (origin site.dir t).1 (origin site.dir t).2 = .ok q := by
  have located := placed.located_after
  rw [(site.grow placed.grows).locate_beside tmp_long (locate_ok.mp located).1] at located
  have link : (fs.set q (.file c)).get? ((site.grow placed.grows).dir ++
      [Path.renamed (site.grow placed.grows).name "json.tmp"]) = some (.link t) := placed.there
  have short : ¬nameLimit < (Path.renamed (site.grow placed.grows).name "json.tmp").utf8ByteSize := by
    intro wide
    rw [resolve_name (Path.step?_renamed tmp_long), if_pos wide] at located
    cases located
  rw [resolve_link (Path.step?_renamed tmp_long) short link, List.append_nil] at located
  cases links : (site.grow placed.grows).links with
  | zero =>
    rw [links] at located
    cases located
  | succ n =>
    rw [links] at located
    exact ⟨n, links, located⟩

/-- The file that was moved to the site has the bytes. -/
theorem eq_of_file (placed : Placed site c q (.file b) h) : b = c := by
  have there := placed.there
  rw [get?_set placed.plain.ne_nil] at there
  split at there
  · exact (Entry.file.inj (Option.some.inj there)).symm
  · rename_i other
    have plain : ∀ t, fs.get? (site.beside "json.tmp") ≠ some (.link t) := by simp [there]
    exact absurd (site.eq_beside_of_plain tmp_long plain placed.located).symm other

/-- What is at the site now was beside it. -/
theorem renames (placed : Placed site c q (.link t) h) :
    Renames (site.beside "json.tmp") site.place t (fs.set q (.file c)) h where
  same x notOld notNew := by rw [placed.get?, if_neg notNew, if_neg notOld]
  was := placed.there
  now := by rw [placed.get?, if_pos rfl]
  file := placed.kept
  beside := by rw [Site.beside, Site.place, List.dropLast_concat, List.dropLast_concat]

/-- The way to the site is still there. -/
theorem way (placed : Placed site c q e h) (sound : fs.Sound) (blocked : site.Blocked) :
    h.Enters linkLimit (p.lead.base h.here) (p.lead.dots ++ site.dirs) site.links site.dir := by
  refine site.keep sound tmp_long blocked placed.located placed.plain.file placed.here
    (fun x there => ?_) (fun x u neither there => ?_)
  · have still := placed.grows.directory x there
    have free : (fs.set q (.file c)).get? (site.beside "json.tmp") ≠ some .directory :=
      fun directory => placed.file (Option.some.inj (placed.there.symm.trans directory))
    rw [placed.get?, if_neg (ne_of_get? placed.kept still), if_neg (ne_of_get? free still)]
    exact still
  · rw [placed.get?, if_neg fun same => neither (.inr same), if_neg fun same => neither (.inl same)]
    exact placed.grows.link x u there

/-- No way to it goes through what was moved there. -/
theorem blocked (placed : Placed site c q e h) (sound : fs.Sound) (blocked : site.Blocked) :
    Site.Blocked { site with way := placed.way sound blocked } := by
  intro t k qs link detour
  change h.get? site.place = some (.link t) at link
  change h.Enters k (origin site.dir t).1 ((origin site.dir t).2 ++ qs) site.links site.dir
    at detour
  rw [placed.get?, if_pos rfl] at link
  obtain rfl := Option.some.inj link
  have there : (fs.set q (.file c)).get? ((site.grow placed.grows).beside "json.tmp") =
    some (.link t) := placed.there
  have file : (fs.set q (.file c)).get? q ≠ some .directory := by simp [placed.bytes]
  have none_ : ∀ k qs, ¬(fs.set q (.file c)).Enters k (origin site.dir t).1
      ((origin site.dir t).2 ++ qs) site.links site.dir := fun k qs way =>
    (site.grow placed.grows).no_detour_beside placed.written tmp_long placed.located_after file
      there way.le way
  rcases detour.inherited (placed.inherits fun u same => (Entry.link.inj same).symm) with
    before | ⟨-, k', qs', behind⟩
  · exact none_ k qs before
  · rw [Site.place, List.dropLast_concat] at behind
    exact none_ k' qs' behind

/-- The path leads to the bytes, or to a link that was moved to the site and leads back to it. -/
theorem leads (placed : Placed site c q e h) (sound : fs.Sound) (blocked : site.Blocked) :
    h.entry? p = .ok (.file c) ∨ h.entry? p = .error .linkLoop := by
  have here : h.get? (site.dir ++ [site.name]) = some e := by
    change h.get? site.place = some e
    rw [placed.get?, if_pos rfl]
  have own : h.locate true p = resolve h true site.links site.dir [site.name] := by
    rw [← placed.last]
    exact Site.locate_own { site with way := placed.way sound blocked } placed.spelled
  unfold FileSystem.entry?
  cases e with
  | directory => exact absurd rfl placed.file
  | file b =>
    obtain rfl := placed.eq_of_file
    rw [resolve_name site.step, if_neg placed.short, here] at own
    rw [own]
    left
    simp [Except.bind, here]
  | link t =>
    obtain ⟨n, links, found⟩ := placed.behind
    rw [resolve_link site.step placed.short here, links, List.append_nil] at own
    have directory := placed.grows.directory _ (site.directory sound)
    have dir : site.place.dropLast = site.dir := by rw [Site.place, List.dropLast_concat]
    have renamed := placed.renames.resolve (n := n) placed.written placed.bytes
    rw [dir] at renamed
    rw [own]
    rcases renamed directory found with ⟨still, there⟩ | loop
    · left
      simp [hop, still, there, Except.bind]
    · right
      simp [hop, loop, Except.bind]

end Placed

/-- A write leaves the directory of a snapshot where it is. If it goes well, the path leads to the
bytes or round in a circle; if not, it leads to the bytes or to a file that it led to before. -/
theorem Prepared.put (prepared : Prepared p fs) (firm : Firm p fs) (run : put p c fs = (r, h)) :
    h.Sound ∧ h.HasParent p ∧ Firm p h ∧
      (r = .ok () → h.entry? p = .ok (.file c) ∨ h.entry? p = .error .linkLoop) ∧
        ∀ b, h.entry? p = .ok (.file b) → b = c ∨ fs.entry? p = .ok (.file b) := by
  by_cases done : r = .ok ()
  · subst done
    obtain ⟨⟨name, named⟩, places⟩ := placed_of_put prepared.sound run
    obtain ⟨site, blocked⟩ := firm name named
    obtain ⟨q, e, placed⟩ := places site
    have blocked := blocked placed.spelled placed.last
    have reads := placed.leads prepared.sound blocked
    refine ⟨placed.sound, ?_, fun _ _ => ⟨_, fun _ _ => placed.blocked prepared.sound blocked⟩,
      fun _ => reads, fun b found => .inl ?_⟩
    · exact Site.hasParent { site with way := placed.way prepared.sound blocked } placed.sound
        placed.spelled
    · rcases reads with there | loop
      · exact Entry.file.inj (Except.ok.inj (found.symm.trans there))
      · exact absurd (found.symm.trans loop) nofun
  · obtain ⟨prepared', -⟩ := put_again prepared run done
    refine ⟨prepared'.sound, prepared'.parents, ?_⟩
    rcases set_of_put_error prepared.sound run done with rfl | ⟨q, plain, rfl⟩
    · exact ⟨firm, fun ok => absurd ok done, fun b found => .inr found⟩
    · exact ⟨firm.set plain, fun ok => absurd ok done, fun b found => found_of_set plain found⟩

end Store

end CodeSearch
