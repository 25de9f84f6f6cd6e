import CodeSearch.Proofs.Store.Adoption

/-! # What a flush makes durable

A handle that alone writes its snapshot takes records and flushes them. A flush that succeeds
leaves on disk the last record taken under each id, unless an `init` has come in between: it reads
the snapshot again and forgets what was pending.
-/

namespace CodeSearch

namespace Store

variable {p : Path} {dimension : Nat} {metric : Metric} {files fs fs' : FileSystem}
variable {s t : Store} {disk taken : Table Record} {c : Call} {calls : List Call} {id : String}

/-- Calls to a handle, one after the other, on files that it alone changes. -/
def session (x : Store × FileSystem) : List Call → Store × FileSystem
  | [] => x
  | c :: calls => session (answer c x.1 x.2).2 calls

/-- What a call brings into the store. -/
def intake (s : Store) : Call → List (String × Record)
  | .request (.add b) => if (s.tryAdd b).1 = .ok () then b.entries else []
  | _ => []

/-- What was brought in by calls, in order. -/
def accepted (x : Store × FileSystem) : List Call → List (String × Record)
  | [] => []
  | c :: calls => x.1.intake c ++ accepted (answer c x.1 x.2).2 calls

/-- A fresh load finds the record that a store has under an id. -/
def OnDisk (x : Store × FileSystem) (h : Holdings) (id : String) : Prop :=
  ∃ p D, x.1.path = some p ∧ fresh p x.1.dimension x.2 = .ok D ∧ D.get? id = h.records.get? id

/-- Whenever `init` is called, each pending record is on disk already, or another one is taken
under its id later. -/
def Spares (x : Store × FileSystem) : List Call → Prop
  | [] => True
  | c :: calls =>
    (c = .request .init → ∀ h, x.1.holdings = some h → ∀ id ∈ h.dirty.keys,
      OnDisk x h id ∨ id ∈ (accepted (answer c x.1 x.2).2 calls).map Prod.fst) ∧
      Spares (answer c x.1 x.2).2 calls

/-- Calls of a handle that is neither cleared nor dropped. -/
def Call.Retains : Call → Prop
  | .request .clear => False
  | .request .drop => False
  | .request q => q.Fair
  | .query .. => True

/-- The numbers and the lines that are added can be written. -/
def Call.Fair : Call → Prop
  | .request q => q.Fair
  | .query .. => True

theorem Call.Retains.fair (retains : c.Retains) : c.Fair := by
  cases c with
  | query => trivial
  | request q =>
    cases q with
    | add b => exact retains
    | _ => trivial

/-! ## The account of a session -/

/-- What should be on disk and what should be pending. -/
structure Account where
  disk : Table Record
  pending : Table Record

namespace Account

/-- What is on disk, with what is pending over it. -/
def view (a : Account) : Table Record := a.disk.covered a.pending

/-- Note a call with its result. -/
def note (a : Account) : Call → Except StoreError (List Neighbor) → Account
  | .request q, .ok _ => ⟨(q.settle a.disk a.pending).1, (q.settle a.disk a.pending).2⟩
  | _, _ => a

/-- Note the calls of a session. -/
def after (a : Account) (x : Store × FileSystem) : List Call → Account
  | [] => a
  | c :: calls => after (a.note c (answer c x.1 x.2).1) (answer c x.1 x.2).2 calls

/-- A store and its files are as noted. -/
structure Kept (p : Path) (dimension : Nat) (a : Account) (x : Store × FileSystem) : Prop where
  tracks : Tracks p dimension a.pending x.1
  carries : Carries dimension p a.disk x.2
  storable : Storable dimension a.disk

variable {a : Account} {x : Store × FileSystem}

theorem kept_start (carries : Carries dimension p disk files)
    (storable : Storable dimension disk) :
    Kept p dimension ⟨disk, .empty⟩ (closed (some p) dimension metric, files) :=
  ⟨⟨rfl, rfl, fun _ => rfl, nofun, storable_empty⟩, carries, storable⟩

theorem Kept.step (word : dimension < wordSize) (fair : c.Fair) (kept : Kept p dimension a x) :
    Kept p dimension (a.note c (answer c x.1 x.2).1) (answer c x.1 x.2).2 := by
  obtain ⟨tracks, carries, storable⟩ := kept
  cases c with
  | query v k kind => exact ⟨tracks, carries, storable⟩
  | request q =>
    rcases run : perform q x.1 x.2 with ⟨e | _, t, after⟩
    · rw [answer_request run]
      obtain ⟨rfl, carries'⟩ := perform_error word tracks carries storable run
      exact ⟨tracks, carries', storable⟩
    · rw [answer_request run]
      obtain ⟨tracks', carries', storable'⟩ := perform_ok word fair tracks carries storable run
      exact ⟨tracks', carries', storable'⟩

theorem Kept.session (word : dimension < wordSize) (fair : ∀ c ∈ calls, c.Fair)
    (kept : Kept p dimension a x) : Kept p dimension (a.after x calls) (session x calls) := by
  induction calls generalizing a x with
  | nil => exact kept
  | cons c calls ih =>
    obtain ⟨first, rest⟩ := List.forall_mem_cons.mp fair
    exact ih rest (kept.step word first)

/-- While the files carry the snapshot, it can always be read again. -/
theorem Kept.init_eq (kept : Kept p dimension a x) : ∃ index, x.1.init x.2 =
    (.ok { x.1 with holdings := some ⟨a.disk, index, .empty⟩ }, x.2) := by
  obtain ⟨tracks, carries, storable⟩ := kept
  have loads : x.1.load p x.2 = (.ok a.disk, x.2) := by
    rw [load_eq, tracks.fits, carries.now]
  obtain ⟨index, indexed⟩ := indexOf_ok (tracks.fits ▸ storable)
  exact ⟨index, init_of_load tracks.path loads indexed⟩

theorem Kept.init_ok (kept : Kept p dimension a x) :
    (answer (.request .init) x.1 x.2).1 = .ok [] := by
  obtain ⟨index, done⟩ := kept.init_eq
  simp only [answer, perform, attempt, done]
  rfl

/-- Three things can happen to the account: pending records are dropped, more come in, or they go
to disk. -/
theorem Kept.note_cases (retains : c.Retains) (kept : Kept p dimension a x) :
    (c = .request .init ∧ a.note c (answer c x.1 x.2).1 = ⟨a.disk, .empty⟩) ∨
      c ≠ .request .init ∧
        (a.note c (answer c x.1 x.2).1 = ⟨a.disk, a.pending.insertAll (x.1.intake c)⟩ ∨
          x.1.intake c = [] ∧ a.note c (answer c x.1 x.2).1 = ⟨a.view, .empty⟩) := by
  cases c with
  | query v k kind => exact .inr ⟨by simp, .inl rfl⟩
  | request q =>
    cases q with
    | init =>
      left
      rw [kept.init_ok]
      exact ⟨rfl, rfl⟩
    | clear => exact retains.elim
    | drop => exact retains.elim
    | add b =>
      refine .inr ⟨by simp, .inl ?_⟩
      rcases tryAdd_cases b x.1 with ⟨t, -, done⟩ | ⟨e, -, failed⟩
      · have run : perform (.add b) x.1 x.2 = (.ok (), t, x.2) := by
          rw [perform, done]
        rw [answer_request run, intake, done, if_pos rfl]
        rfl
      · have run : perform (.add b) x.1 x.2 = (.error e, x.1, x.2) := by
          rw [perform, failed]
        rw [answer_request run, intake, failed, if_neg (by simp)]
        rfl
    | flush =>
      refine .inr ⟨by simp, ?_⟩
      rcases run : perform .flush x.1 x.2 with ⟨e | _, t, after⟩
      · rw [answer_request run]
        exact .inl rfl
      · rw [answer_request run]
        exact .inr ⟨rfl, rfl⟩

/-- Under an id where nothing is pending and nothing comes in, the disk stays as it is. -/
theorem Kept.view_after (word : dimension < wordSize) (retains : ∀ c ∈ calls, c.Retains)
    (kept : Kept p dimension a x) (clean : a.pending.get? id = none)
    (absent : id ∉ (accepted x calls).map Prod.fst) :
    (a.after x calls).view.get? id = a.disk.get? id := by
  induction calls generalizing a x with
  | nil => simp [after, view, clean]
  | cons c calls ih =>
    obtain ⟨first, rest⟩ := List.forall_mem_cons.mp retains
    simp only [accepted, List.map_append, List.mem_append, not_or] at absent
    have next := fun clean' => ih rest (kept.step word first.fair) clean' absent.2
    rw [after]
    rcases kept.note_cases first with ⟨-, noted⟩ | ⟨-, noted | ⟨-, noted⟩⟩
    · rw [noted] at next ⊢
      exact next rfl
    · have clean' : (a.pending.insertAll (x.1.intake c)).get? id = none := by
        cases there : (a.pending.insertAll (x.1.intake c)).get? id with
        | none => rfl
        | some r =>
          rcases Table.mem_of_get?_insertAll there with new | old
          · exact absurd (List.mem_map_of_mem new) absent.1
          · exact absurd (clean.symm.trans old) nofun
      rw [noted] at next ⊢
      exact next clean'
    · rw [noted] at next ⊢
      rw [next rfl, view, Table.get?_covered, clean, Option.none_or]

/-- A pending record waits in the store. -/
theorem Kept.of_pending {r : Record} (kept : Kept p dimension a x)
    (pending : a.pending.get? id = some r) :
    ∃ h, x.1.holdings = some h ∧ id ∈ h.dirty.keys ∧ h.records.get? id = some r := by
  cases held : x.1.holdings with
  | none =>
    rw [kept.tracks.closed held] at pending
    cases pending
  | some h =>
    have tracked := kept.tracks.ready h held
    have waits := (tracked.dirty id).mpr (Table.mem_keys_iff.mpr (by simp [pending]))
    exact ⟨h, rfl, waits, tracked.records id r pending⟩

/-- What is on disk is as noted. -/
theorem Kept.get?_of_onDisk {h : Holdings} (kept : Kept p dimension a x) (there : OnDisk x h id) :
    a.disk.get? id = h.records.get? id := by
  obtain ⟨q, D, path, found, same⟩ := there
  obtain rfl := Option.some.inj (kept.tracks.path.symm.trans path)
  rw [fresh_eq, kept.tracks.fits, kept.carries.now] at found
  rw [Except.ok.inj found]
  exact same

theorem view_insertAll (es : List (String × Record)) :
    view ⟨a.disk, a.pending.insertAll es⟩ = a.view.insertAll es := by
  refine Table.ext_get? fun id => ?_
  rw [view, view, Table.get?_covered, Table.get?_insertAll, Table.get?_insertAll,
    Table.get?_covered, Option.or_assoc]

/-- What is pending was taken last under its id, if that was so before. -/
theorem Kept.within_step (retains : c.Retains) (kept : Kept p dimension a x)
    (within : ∀ id r, a.pending.get? id = some r → taken.get? id = some r) :
    ∀ id r, (a.note c (answer c x.1 x.2).1).pending.get? id = some r →
      (taken.insertAll (x.1.intake c)).get? id = some r := by
  intro id r pending
  rcases kept.note_cases retains with ⟨-, noted⟩ | ⟨-, noted | ⟨-, noted⟩⟩
  · rw [noted] at pending
    cases pending
  · rw [noted] at pending
    rw [Table.get?_insertAll] at pending ⊢
    cases found : Table.find? id (x.1.intake c).reverse with
    | some r' => simpa [found] using pending
    | none =>
      rw [found] at pending
      exact within id r pending
  · rw [noted] at pending
    cases pending

end Account

open Account

variable {a : Account} {x : Store × FileSystem}

/-- If the last record taken under each id is in the view after a session, the session spares what
is pending. -/
theorem spares_of_view (word : dimension < wordSize) (retains : ∀ c ∈ calls, c.Retains)
    (kept : Kept p dimension a x)
    (within : ∀ id r, a.pending.get? id = some r → taken.get? id = some r)
    (upheld : ∀ id r, (taken.insertAll (accepted x calls)).get? id = some r →
      (a.after x calls).view.get? id = some r) : Spares x calls := by
  induction calls generalizing a x taken with
  | nil => trivial
  | cons c calls ih =>
    obtain ⟨first, rest⟩ := List.forall_mem_cons.mp retains
    rw [accepted, Table.insertAll_append] at upheld
    refine ⟨?_, ih rest (kept.step word first.fair) (kept.within_step first within) upheld⟩
    rintro rfl h held id waits
    by_cases again : id ∈ (accepted (answer (.request .init) x.1 x.2).2 calls).map Prod.fst
    · exact .inr again
    left
    have tracked := kept.tracks.ready h held
    obtain ⟨r, pending⟩ := Option.isSome_iff_exists.mp
      (Table.mem_keys_iff.mp ((tracked.dirty id).mp waits))
    have last : ((taken.insertAll (x.1.intake (.request .init))).insertAll
        (accepted (answer (.request .init) x.1 x.2).2 calls)).get? id = some r := by
      have absent : Table.find? id
          (accepted (answer (.request .init) x.1 x.2).2 calls).reverse = none := by
        rw [← Option.not_isSome_iff_eq_none, Table.find?_isSome_iff, List.map_reverse,
          List.mem_reverse]
        exact again
      rw [Table.get?_insertAll, absent]
      exact within id r pending
    have final := upheld id r last
    have noted : a.note (.request .init) (answer (.request .init) x.1 x.2).1 =
        ⟨a.disk, .empty⟩ := by
      rw [kept.init_ok]
      rfl
    have next := kept.step (c := .request .init) word trivial
    rw [after, noted] at final
    rw [noted] at next
    rw [next.view_after word rest rfl again] at final
    refine ⟨p, a.disk, kept.tracks.path, ?_, ?_⟩
    · rw [fresh_eq, kept.tracks.fits, kept.carries.now]
    · rw [tracked.records id r pending]
      exact final

/-- If a session spares what is pending, the last record taken under each id is in the view after
it. -/
theorem view_of_spares (word : dimension < wordSize) (retains : ∀ c ∈ calls, c.Retains)
    (kept : Kept p dimension a x)
    (ahead : ∀ id r, taken.get? id = some r →
      a.view.get? id = some r ∨ id ∈ (accepted x calls).map Prod.fst)
    (spares : Spares x calls) :
    ∀ id r, (taken.insertAll (accepted x calls)).get? id = some r →
      (a.after x calls).view.get? id = some r := by
  induction calls generalizing a x taken with
  | nil =>
    intro id r there
    simpa [accepted, Account.after] using ahead id r there
  | cons c calls ih =>
    obtain ⟨first, rest⟩ := List.forall_mem_cons.mp retains
    obtain ⟨here, later⟩ := spares
    rw [accepted, Table.insertAll_append]
    refine ih rest (kept.step word first.fair) ?_ later
    intro id r there
    by_cases again : id ∈ (accepted (answer c x.1 x.2).2 calls).map Prod.fst
    · exact .inr again
    left
    have ahead' : ∀ r, taken.get? id = some r →
        a.view.get? id = some r ∨ id ∈ (x.1.intake c).map Prod.fst := by
      intro r before
      refine (ahead id r before).imp_right fun listed => ?_
      rw [accepted, List.map_append, List.mem_append] at listed
      exact listed.resolve_right again
    rcases kept.note_cases first with ⟨rfl, noted⟩ | ⟨-, noted | ⟨none_, noted⟩⟩
    · have view := (ahead' r there).resolve_right List.not_mem_nil
      rw [noted, Account.view, Table.covered_empty]
      rw [Account.view, Table.get?_covered] at view
      cases pending : a.pending.get? id with
      | none => simpa [pending] using view
      | some r' =>
        obtain rfl : r' = r := by simpa [pending] using view
        obtain ⟨h, held, waits, same⟩ := kept.of_pending pending
        exact (kept.get?_of_onDisk ((here rfl h held id waits).resolve_right again)).trans same
    · rw [noted, view_insertAll]
      rw [Table.get?_insertAll] at there ⊢
      cases found : Table.find? id (x.1.intake c).reverse with
      | some r' => simpa [found] using there
      | none =>
        rw [found] at there
        refine (ahead' r there).resolve_right fun listed => ?_
        rw [← List.mem_reverse, ← List.map_reverse, ← Table.find?_isSome_iff, found] at listed
        cases listed
    · rw [none_] at there ahead'
      rw [noted]
      exact (ahead' r there).resolve_right List.not_mem_nil

/-- After any session of a handle that alone writes its snapshot, a flush that succeeds has left the
last record taken under each id on disk, if and only if no `init` of the session came upon a pending
record that was neither on disk already nor followed by another under its id. -/
theorem durable_iff_spares (word : dimension < wordSize) (carries : Carries dimension p disk files)
    (storable : Storable dimension disk) (retains : ∀ c ∈ calls, c.Retains)
    (reached : session (closed (some p) dimension metric, files) calls = (s, fs))
    (flushed : s.flush fs = (.ok t, fs')) :
    ∃ D, fresh p dimension fs' = .ok D ∧
      ((∀ id r, (Table.ofList (accepted (closed (some p) dimension metric, files) calls)).get? id =
          some r → D.get? id = some r) ↔
        Spares (closed (some p) dimension metric, files) calls) := by
  have start : Kept p dimension ⟨disk, .empty⟩ (closed (some p) dimension metric, files) :=
    kept_start carries storable
  have kept := start.session word fun c listed => (retains c listed).fair
  rw [reached] at kept
  have left := (flush_ok_carries word kept.tracks kept.carries kept.storable flushed).2
  refine ⟨_, (fresh_eq _ _ _).trans left.now, ?_, ?_⟩
  · exact spares_of_view word retains start nofun
  · exact view_of_spares word retains start nofun

namespace Forgotten

/-- A record is taken, and `init` is called before it is flushed. -/
def steps : List Call :=
  [.request .init, .request (.add (.ofEntries [("a", Writers.noted "x")])), .request .init]

theorem retains : ∀ c ∈ steps, c.Retains := by
  have fair : (Request.add (.ofEntries [("a", Writers.noted "x")])).Fair :=
    fair_ofEntries (List.forall_mem_singleton.mpr (Writers.storable_noted "x"))
  intro c listed
  simp only [steps, List.mem_cons, List.not_mem_nil, or_false] at listed
  rcases listed with rfl | rfl | rfl
  · trivial
  · exact fair
  · trivial

/-- The handle before its first `init`, on no files. -/
def opened : Store × FileSystem := (closed (some (Path.ofText "s.json")) 1 .l2, ⟨[], []⟩)

theorem answer_init (held : Option Holdings) :
    answer (.request .init) (Writers.handle held) ⟨[], []⟩ =
      (.ok [], Writers.handle (some Writers.bare), ⟨[], []⟩) := rfl

theorem answer_add :
    answer (.request (.add (.ofEntries [("a", Writers.noted "x")])))
      (Writers.handle (some Writers.bare)) ⟨[], []⟩ =
        (.ok [], Writers.handle (some (Writers.bare.upserted [("a", Writers.noted "x")])),
          ⟨[], []⟩) :=
  answer_request (Writers.handle_add rfl)

theorem session_steps : session opened steps = (Writers.handle (some Writers.bare), ⟨[], []⟩) := by
  have first : answer (.request .init) opened.1 opened.2 = _ := answer_init none
  simp only [steps, session, first, answer_add, answer_init]

/-- There is nothing for a flush to write. -/
theorem flush_bare :
    (Writers.handle (some Writers.bare)).flush ⟨[], []⟩ =
      (.ok (Writers.handle (some Writers.bare)), ⟨[], []⟩) := rfl

end Forgotten

/-- A record is taken, `init` is called again, and a flush succeeds without the record. -/
theorem not_durable_init : ∃ s fs t fs' D,
    session Forgotten.opened Forgotten.steps = (s, fs) ∧ s.flush fs = (.ok t, fs') ∧
      fresh (Path.ofText "s.json") 1 fs' = .ok D ∧
        ¬∀ id r, (Table.ofList (accepted Forgotten.opened Forgotten.steps)).get? id = some r →
          D.get? id = some r := by
  obtain ⟨D, found, durable⟩ := durable_iff_spares (by decide) Writers.vacant_bare.carries
    storable_empty Forgotten.retains Forgotten.session_steps Forgotten.flush_bare
  refine ⟨_, _, _, _, D, Forgotten.session_steps, Forgotten.flush_bare, found, fun all => ?_⟩
  -- The second `init` comes upon the record, which is not on disk.
  obtain ⟨-, -, last, -⟩ := durable.mp all
  have spared : OnDisk (Writers.handle (some (Writers.bare.upserted [("a", Writers.noted "x")])),
      ⟨[], []⟩) (Writers.bare.upserted [("a", Writers.noted "x")]) "a" ∨ "a" ∈ [] :=
    last rfl _ rfl "a" (by decide +kernel)
  rcases spared with ⟨p, D', path, load, same⟩ | again
  · obtain rfl := Option.some.inj path
    have none_ : fresh (Path.ofText "s.json") 1 ⟨[], []⟩ = .ok .empty := rfl
    obtain rfl := Except.ok.inj (none_.symm.trans load)
    cases same
  · cases again

end Store

end CodeSearch
