import CodeSearch.Proofs.Indexing.Order
import CodeSearch.Proofs.Store.Contents

/-! # Stores that are filled by indexing alone

Any number of jobs go on at once, on handles of one snapshot or on stores in memory. Between their
steps any handle may be asked for anything but to add, and any batch may be refused. Whatever comes
of it, every record shows a chunk that some job extracted.
-/

namespace CodeSearch

open Indexing

/-- The entries of some chunks. -/
def Indexing.Shows (f : String → Embedding) (cs : List Chunk) (id : String) (r : Record) : Prop :=
  (id, r) ∈ cs.map (entry f)

/-- Stores and the jobs that fill them. -/
structure Plant (ε : Type) where
  writers : Writers
  embedder : ε
  /-- The sources that are being indexed, each with the handle that it is written to. -/
  tasks : List (Nat × Task)
  /-- What was extracted so far. -/
  extracted : List Chunk

namespace Plant

variable {ε : Type}

/-- No handle is ready yet, and there is nothing to index. -/
def start (e : ε) (path : Option Path) (dimension : Nat → Nat) (metric : Nat → Metric)
    (files : FileSystem) : Plant ε :=
  ⟨⟨fun n => Store.closed path (dimension n) (metric n), files⟩, e, [], []⟩

/-- One step: a request to a handle, the sources of another job, or a step of a task, in which the
store may refuse the batch for any reason. The files that are indexed may change at any time. -/
inductive Step (m : Embedder ε) (P : Plant ε) : Plant ε → Prop
  | request (n : Nat) {q} (quiet : ∀ b, q ≠ .add b) :
      Step m P { P with writers := (P.writers.step n q).2 }
  | begin (n : Nat) {indexer parse job fs xs}
      (planned : Workshop.sources ⟨indexer, parse, m, storeBackend⟩ fs job = .ok xs) :
      Step m P { P with
        tasks := P.tasks ++ xs.map fun x => (n, Task.start indexer.batchSize x)
        extracted := P.extracted ++ xs.flatMap Source.chunks }
  | work {n t rest t' e s faults log} (picked : P.tasks.Perm ((n, t) :: rest))
      (fault : Option StoreError)
      (step : Task.Step m faultyBackend (t, ⟨P.embedder, (P.writers.stores n, [fault]), []⟩)
        (t', ⟨e, (s, faults), log⟩)) :
      Step m P { P with
        writers := ⟨Function.update P.writers.stores n s, P.writers.files⟩
        embedder := e
        tasks := (n, t') :: rest }

abbrev Run (m : Embedder ε) : Plant ε → Plant ε → Prop := Relation.ReflTransGen (Step m)

end Plant

namespace Indexing

variable {ε : Type} {m : Embedder ε} {f : String → Embedding} {cs ds : List Chunk} {t t' : Task}
variable {id : String} {r : Record}

theorem Shows.mono (among : ∀ c ∈ cs, c ∈ ds) (shows_ : Shows f cs id r) : Shows f ds id r := by
  obtain ⟨c, listed, same⟩ := List.mem_map.mp shows_
  exact List.mem_map.mpr ⟨c, among c listed, same⟩

theorem mem_of_mem_groups {α : Type} {n fuel : Nat} {xs g : List α} {x : α}
    (listed : g ∈ groupsFrom n fuel xs) (inside : x ∈ g) : x ∈ xs := by
  induction fuel generalizing xs with
  | zero => cases listed
  | succ fuel ih =>
    unfold groupsFrom at listed
    split at listed
    · cases listed
    · rcases List.mem_cons.mp listed with rfl | later
      · exact List.mem_of_mem_take inside
      · exact List.mem_of_mem_drop (ih later)

/-- All chunks of a task are among some, and the loads on their way bring their entries. -/
structure Task.Sourced (f : String → Embedding) (cs : List Chunk) (t : Task) : Prop where
  waiting : ∀ g ∈ t.waiting, ∀ c ∈ g, c ∈ cs
  flying : ∀ l ∈ t.flying, ∀ e ∈ l.entries, Shows f cs e.1 e.2

theorem Task.Sourced.mono (among : ∀ c ∈ cs, c ∈ ds) (sourced : t.Sourced f cs) :
    t.Sourced f ds :=
  ⟨fun g listed c inside => among c (sourced.waiting g listed c inside),
    fun l listed e inside => (sourced.flying l listed e inside).mono among⟩

theorem Task.sourced_start (n : Nat) (x : Source) : (Task.start n x).Sourced f x.chunks :=
  ⟨fun _ listed _ inside => mem_of_mem_groups listed inside, nofun⟩

/-- A batch that is taken or refused leaves a store what it is. -/
theorem coherent_of_add {b : Batch} {s s' : Store × List (Option StoreError)}
    {r : Except StoreError Unit} (coherent : s.1.Coherent)
    (added : faultyBackend.add b s = (r, s')) : s'.1.Coherent ∧ Store.Alike s.1 s'.1 := by
  simp only [faultyBackend] at added
  split at added
  · rw [← (Prod.mk.inj added).2]
    exact ⟨coherent, rfl, rfl, rfl⟩
  · rw [← (Prod.mk.inj added).2]
    rcases s.1.tryAdd_cases b with ⟨u, ok, done⟩ | ⟨e, -, failed⟩
    · rw [done]
      exact coherent.add ok
    · rw [failed]
      exact ⟨coherent, rfl, rfl, rfl⟩

/-- What a step of a task keeps, and what it does to the store. -/
theorem Task.Sourced.step {w w' : Bench ε (Store × List (Option StoreError))}
    (steady : m.Steady f) (coherent : w.backend.1.Coherent)
    (records : w.backend.1.records.All (Shows f cs)) (sourced : t.Sourced f cs)
    (step : Task.Step m faultyBackend (t, w) (t', w')) :
    t'.Sourced f cs ∧ w'.backend.1.records.All (Shows f cs) ∧
      w'.backend.1.Coherent ∧ Store.Alike w.backend.1 w'.backend.1 := by
  obtain ⟨waiting, flying⟩ := sourced
  have same : Store.Alike w.backend.1 w.backend.1 := ⟨rfl, rfl, rfl⟩
  cases step with
  | @embed _ _ g gs vectors e next embedded =>
    rw [next] at waiting
    obtain ⟨first, rest⟩ := List.forall_mem_cons.mp waiting
    refine ⟨⟨rest, fun l listed => ?_⟩, records, coherent, same⟩
    rcases List.mem_append.mp listed with before | new
    · exact flying l before
    · obtain rfl := List.mem_singleton.mp new
      have made : Load.Made m ⟨g, vectors⟩ := ⟨_, _, embedded⟩
      intro x inside
      rw [made.entries_eq steady] at inside
      obtain ⟨c, among, rfl⟩ := List.mem_map.mp inside
      exact List.mem_map_of_mem (first c among)
  | stop => exact ⟨⟨nofun, flying⟩, records, coherent, same⟩
  | @write _ _ l rest r s picked answered =>
    refine ⟨⟨waiting, fun l' listed => ?_⟩, ?_, coherent_of_add coherent answered⟩
    · exact flying l' (picked.mem_iff.mpr (List.mem_cons_of_mem _ listed))
    · cases r with
      | ok _ =>
        have taken := faultyBackend_keeps.taken _ _ _ answered
        dsimp only at taken ⊢
        rw [taken]
        exact records.insertAll (flying l (picked.mem_iff.mpr List.mem_cons_self))
      | error x =>
        have refused := faultyBackend_keeps.refused _ _ _ _ answered
        dsimp only at refused ⊢
        rw [refused]
        exact records
  | join => exact ⟨⟨waiting, flying⟩, records, coherent, same⟩

/-- A step of a task adds to the store, or leaves it. -/
theorem Task.Step.kept {holds : Store → Prop} {w w' : Bench ε (Store × List (Option StoreError))}
    (kept : ∀ q s fs, holds s → holds (Store.perform q s fs).2.1)
    (step : Task.Step m faultyBackend (t, w) (t', w')) (before : holds w.backend.1) :
    holds w'.backend.1 := by
  cases step with
  | embed | stop | join => exact before
  | @write _ _ l rest r s picked answered =>
    simp only [faultyBackend] at answered
    split at answered
    · rw [← (Prod.mk.inj answered).2]
      exact before
    · rw [← (Prod.mk.inj answered).2]
      exact kept (.add l.batch) w.backend.1 ⟨[], []⟩ before

end Indexing

namespace Plant

variable {ε : Type} {m : Embedder ε} {f : String → Embedding} {P P' : Plant ε}
variable {path : Option Path} {dimension : Nat → Nat} {metric : Nat → Metric} {files : FileSystem}
variable {e : ε}

/-- What is true of one handle: it is as it was opened, and its records show extracted chunks. -/
structure Handles (f : String → Embedding) (cs : List Chunk) (path : Option Path)
    (dimension : Nat) (s : Store) : Prop where
  path : s.path = path
  dimension : s.dimension = dimension
  coherent : s.Coherent
  records : s.records.All (Shows f cs)

/-! ## What is extracted -/

theorem distance_ofLanguage {parse : Parser} {o : Options} {source : Bytes} {name : String}
    {l : Language} {c : Chunk}
    (listed : c ∈ (Extraction.ofLanguage parse o source name l).chunks) : c.distance = none := by
  unfold Extraction.ofLanguage at listed
  split at listed
  · cases listed
  · split at listed
    · cases listed
    · split at listed
      · cases listed
      · obtain ⟨f, -, rfl⟩ := Setting.mem_chunks.mp listed
        rfl

theorem distance_ofSource {parse : Parser} {o : Options} {source : Bytes} {name ext : String}
    {c : Chunk} (listed : c ∈ (Extraction.ofSource parse o source name ext).chunks) :
    c.distance = none := by
  unfold Extraction.ofSource at listed
  split at listed
  · cases listed
  · exact distance_ofLanguage listed

theorem distance_ofFile {parse : Parser} {o : Options} {fs : FileSystem} {p : Path}
    {name : String} {c : Chunk} (listed : c ∈ (Extraction.ofFile parse o fs p name).chunks) :
    c.distance = none := by
  unfold Extraction.ofFile at listed
  dsimp only at listed
  split at listed
  · cases listed
  · split at listed
    · cases listed
    · exact distance_ofLanguage listed

/-- No distance is known of what was just extracted. -/
theorem distance_of_sources {k : Workshop ε Store} {fs : FileSystem} {job : Job} {xs : List Source}
    (planned : k.sources fs job = .ok xs) : ∀ c ∈ xs.flatMap Source.chunks, c.distance = none := by
  intro c listed
  obtain ⟨x, among, inside⟩ := List.mem_flatMap.mp listed
  have files : ∀ files : List SourceFile, x ∈ files.map (k.sourceOf fs) → c.distance = none := by
    intro files among
    obtain ⟨file, -, rfl⟩ := List.mem_map.mp among
    change c ∈ (Extraction.ofFile k.parse k.indexer.options fs file.path file.name).chunks at inside
    exact distance_ofFile inside
  cases job with
  | source name ext text =>
    obtain rfl := Except.ok.inj planned
    obtain rfl := List.mem_singleton.mp among
    change c ∈ (Extraction.ofSource k.parse k.indexer.options text name ext).chunks at inside
    exact distance_ofSource inside
  | files sources =>
    obtain rfl := Except.ok.inj planned
    exact files _ among
  | paths paths =>
    cases found : k.collect fs paths with
    | error e => simp [Workshop.sources, found, Except.map] at planned
    | ok sources =>
      simp only [Workshop.sources, found, Except.map] at planned
      obtain rfl := Except.ok.inj planned
      exact files _ among
  | directory p =>
    simp only [Workshop.sources] at planned
    split at planned
    · obtain rfl := Except.ok.inj planned
      exact files _ among
    · cases planned

/-! ## Jobs -/

/-- A crew at work on one handle. -/
structure Employs (n : Nat) (w : Writers) (cs : List Chunk) (others : List (Nat × Task))
    (c : Crew ε Store) (P : Plant ε) : Prop where
  writers : P.writers = ⟨Function.update w.stores n c.bench.backend, w.files⟩
  embedder : P.embedder = c.bench.embedder
  tasks : P.tasks.Perm (c.tasks.map (n, ·) ++ others)
  extracted : P.extracted = cs

/-- A step with a store that refuses nothing. -/
theorem step_faulty {t t' : Task} {w w' : Bench ε Store}
    (step : Task.Step m storeBackend (t, w) (t', w')) : ∃ faults log,
      Task.Step m faultyBackend (t, ⟨w.embedder, (w.backend, [none]), []⟩)
        (t', ⟨w'.embedder, (w'.backend, faults), log⟩) := by
  cases step with
  | embed next embedded => exact ⟨_, _, .embed next embedded⟩
  | stop next refused => exact ⟨_, _, .stop next refused⟩
  | write picked answered =>
    obtain ⟨rfl, rfl⟩ := Prod.mk.inj answered
    exact ⟨_, _, .write picked rfl⟩
  | join picked => exact ⟨_, _, .join picked⟩

theorem Employs.step {n : Nat} {w : Writers} {cs : List Chunk} {others : List (Nat × Task)}
    {c c' : Crew ε Store} (employs : Employs n w cs others c P)
    (step : Crew.Step m storeBackend c c') : ∃ P', Run m P P' ∧ Employs n w cs others c' P' := by
  obtain ⟨writers, embedder, tasks, extracted⟩ := employs
  rcases step.tasks_cases with ⟨bench, same⟩ | ⟨t, t', rest, step, before, after⟩
  · refine ⟨P, .refl, ?_, ?_, ?_, extracted⟩
    · rw [bench, writers]
    · rw [bench, embedder]
    · exact tasks.trans ((same.map _).symm.append_right _)
  · obtain ⟨faults, log, step⟩ := step_faulty step
    have store : P.writers.stores n = c.bench.backend := by
      rw [writers]
      exact Function.update_self ..
    rw [← store, ← embedder] at step
    have picked : P.tasks.Perm ((n, t) :: (rest.map (n, ·) ++ others)) :=
      tasks.trans ((before.map _).append_right _)
    refine ⟨_, .single (.work picked none step), ?_, rfl, ?_, extracted⟩
    · simp only [writers, Function.update_idem]
    · exact ((after.map _).append_right _).symm

theorem Employs.run {n : Nat} {w : Writers} {cs : List Chunk} {others : List (Nat × Task)}
    {c c' : Crew ε Store} (employs : Employs n w cs others c P)
    (run : Crew.Run m storeBackend c c') : ∃ P', Run m P P' ∧ Employs n w cs others c' P' := by
  induction run with
  | refl => exact ⟨P, .refl, employs⟩
  | tail _ step ih =>
    obtain ⟨P₁, first, employs₁⟩ := ih
    obtain ⟨P₂, second, employs₂⟩ := employs₁.step step
    exact ⟨P₂, first.trans second, employs₂⟩

theorem flush_finish {k : Workshop ε Store} {stats : Stats} {r : Except IndexError Stats}
    {w w' : World ε Store} (store : k.backend = storeBackend)
    (finished : k.finish stats w = (r, w')) : ∃ r', w'.embedder = w.embedder ∧
      Store.perform .flush w.backend w.files = (r', w'.backend, w'.files) := by
  have flushes : k.backend.flush = Store.attempt Store.flush := by rw [store]; rfl
  simp only [Workshop.finish, flushes] at finished
  rcases done : Store.attempt Store.flush w.backend w.files with ⟨e | _, s, fs⟩ <;>
  · rw [done] at finished
    obtain ⟨-, rfl⟩ := Prod.mk.inj finished
    exact ⟨_, rfl, done⟩

/-- A job on a handle is some steps of the plant, whatever its schedule. -/
theorem run_of_runs {k : Workshop ε Store} {job : Job} {n : Nat} {r : Except IndexError Stats}
    {w : World ε Store} (store : k.backend = storeBackend)
    (runs : k.Runs job ⟨P.embedder, P.writers.stores n, P.writers.files⟩ (r, w)) :
    ∃ P', Run k.embedder P P' ∧ P'.embedder = w.embedder ∧
      P'.writers = ⟨Function.update P.writers.stores n w.backend, w.files⟩ ∧
      ∀ xs, k.undertake job ⟨P.embedder, P.writers.stores n, P.writers.files⟩ = .ok xs →
        P'.extracted = P.extracted ++ xs.flatMap Source.chunks := by
  generalize outcome : (r, w) = out at runs
  cases runs with
  | refused refused =>
    obtain ⟨-, rfl⟩ := Prod.mk.inj outcome
    refine ⟨P, .refl, rfl, ?_, fun xs undertaken => ?_⟩
    · rw [Function.update_eq_self]
    · cases refused.symm.trans undertaken
  | @done xs c undertaken run ended =>
    obtain ⟨r', embedder, flushes⟩ := flush_finish store outcome.symm
    have planned := (Workshop.undertake_ok.mp undertaken).2
    obtain ⟨indexer, parse, m, backend⟩ := k
    obtain rfl : backend = storeBackend := store
    have employs : Employs n P.writers (P.extracted ++ xs.flatMap Source.chunks) P.tasks
        (.start indexer.batchSize xs ⟨P.embedder, P.writers.stores n, []⟩)
        { P with
          tasks := P.tasks ++ xs.map fun x => (n, Task.start indexer.batchSize x)
          extracted := P.extracted ++ xs.flatMap Source.chunks } := by
      refine ⟨?_, rfl, ?_, rfl⟩
      · exact congrArg (Writers.mk · P.writers.files) (Function.update_eq_self ..).symm
      · rw [Crew.tasks, Crew.start, List.append_nil, List.map_map]
        exact List.perm_append_comm
    obtain ⟨P', run', employs'⟩ := employs.run run
    have last := Writers.step_eq (w := P'.writers) (n := n) (q := .flush)
      (r := r') (s := w.backend) (g := w.files) (by rw [employs'.writers]; simpa using flushes)
    have quiet : ∀ b, Store.Request.flush ≠ .add b := fun b => by simp
    refine ⟨_, .head (.begin n planned) (run'.tail (.request n quiet)), ?_, ?_, ?_⟩
    · exact employs'.embedder.trans embedder.symm
    · rw [last, employs'.writers, Function.update_idem]
    · intro xs' undertaken'
      obtain rfl := Except.ok.inj (undertaken.symm.trans undertaken')
      exact employs'.extracted

/-- A job on a handle that serves it may leave its entries there. -/
theorem exists_run_of_sources {k : Workshop ε Store} {job : Job} {n : Nat} {h : Holdings}
    {xs : List Source} (store : k.backend = storeBackend) (pointwise : k.embedder.Pointwise f)
    (lengths : ∀ text, (f text).length = (P.writers.stores n).dimension)
    (positive : 0 < k.indexer.batchSize) (serves : (P.writers.stores n).Serves h)
    (sole : (P.writers.stores n).Sole P.writers.files)
    (planned : k.sources P.writers.files job = .ok xs)
    (apart : Workshop.Apart (xs.flatMap Source.chunks)) :
    ∃ P' h', Run k.embedder P P' ∧ P'.extracted = P.extracted ++ xs.flatMap Source.chunks ∧
      (P'.writers.stores n).Serves h' ∧
      (P'.writers.stores n).dimension = (P.writers.stores n).dimension ∧
      h'.records = h.records.insertAll ((xs.flatMap Source.chunks).map (entry f)) := by
  obtain ⟨r, w, runs⟩ :
      ∃ r w, k.Runs job ⟨P.embedder, P.writers.stores n, P.writers.files⟩ (r, w) :=
    ⟨_, _, k.runs_run job _⟩
  obtain ⟨P', run, -, writers, extracted⟩ := run_of_runs store runs
  obtain ⟨h', serves', records, dimension⟩ :=
    Workshop.records_of_runs (w := ⟨P.embedder, P.writers.stores n, P.writers.files⟩) store
      pointwise lengths positive serves sole planned apart runs
  have own : P'.writers.stores n = w.backend := by
    rw [writers]
    exact Function.update_self ..
  have undertaken := Workshop.undertake_of_serves
    (w := ⟨P.embedder, P.writers.stores n, P.writers.files⟩) store serves planned
  refine ⟨P', h', run, extracted xs undertaken, ?_, ?_, records⟩
  · rwa [own]
  · rwa [own]

/-! ## What is kept -/

/-- One handle after another may change. -/
theorem forall_update {holds : Nat → Store → Prop} {stores : Nat → Store} {n : Nat} {s : Store}
    (others : ∀ n, holds n (stores n)) (own : holds n s) (k : Nat) :
    holds k (Function.update stores n s k) := by
  by_cases same : k = n
  · subst same
    rwa [Function.update_self]
  · rw [Function.update_of_ne same]
    exact others k

/-- What a handle keeps whatever it is asked for, it keeps in every run. -/
theorem stores_of_run {holds : Nat → Store → Prop}
    (kept : ∀ n q s fs, holds n s → holds n (Store.perform q s fs).2.1) (run : Run m P P')
    (first : ∀ n, holds n (P.writers.stores n)) : ∀ n, holds n (P'.writers.stores n) := by
  induction run with
  | refl => exact first
  | tail _ step before =>
    intro k
    cases step with
    | request n quiet =>
      rw [Writers.step_eq rfl]
      exact forall_update before (kept n _ _ _ (before n)) k
    | begin => exact before k
    | @work n t rest t' e s faults log picked fault step =>
      exact forall_update before (step.kept (kept n) (before n)) k

/-- All records that are held or found on disk, and all on their way, show extracted chunks. -/
structure Genuine (f : String → Embedding) (path : Option Path) (dimension : Nat → Nat)
    (P : Plant ε) : Prop where
  stores : ∀ n, Handles f P.extracted path (dimension n) (P.writers.stores n)
  files : ∀ p, path = some p → Store.Guarded (Shows f P.extracted) p P.writers.files
  tasks : ∀ x ∈ P.tasks, x.2.Sourced f P.extracted
  extracted : ∀ c ∈ P.extracted, c.distance = none

theorem genuine_start (barren : ∀ p, path = some p → Store.Barren p files) :
    (start e path dimension metric files).Genuine f path dimension :=
  ⟨fun _ => ⟨rfl, rfl, Store.coherent_closed _ _ _, Table.all_empty⟩,
    fun p same => (barren p same).guarded.mono nofun, nofun, nofun⟩

/-- What was extracted stays so. -/
theorem Step.extracted_subset (step : Step m P P') : ∀ c ∈ P.extracted, c ∈ P'.extracted := by
  cases step with
  | request | work => exact fun _ listed => listed
  | begin => exact fun _ listed => List.mem_append_left _ listed

/-- What has to be assumed of vectors and lines for records to be written and read again. -/
structure Writable (f : String → Embedding) (dimension : Nat → Nat) (cs : List Chunk) : Prop where
  reads : ∀ text, ∀ x ∈ f text, Json.ReadsBack x
  word : ∀ n, dimension n < wordSize
  lines : ∀ c ∈ cs, c.startLine < wordSize ∧ c.endLine < wordSize

theorem Writable.storable {cs : List Chunk} (writable : Writable f dimension cs) (id : String)
    (r : Record) (shows_ : Shows f cs id r) : ∃ n, r.Storable n := by
  obtain ⟨c, listed, same⟩ := List.mem_map.mp shows_
  obtain ⟨rfl, rfl⟩ := Prod.mk.inj same
  exact ⟨_, rfl, writable.reads _, (writable.lines c listed).1, (writable.lines c listed).2⟩

theorem Genuine.step (steady : m.Steady f)
    (writable : ∀ p, path = some p → Writable f dimension P.extracted)
    (genuine : P.Genuine f path dimension) (step : Step m P P') :
    P'.Genuine f path dimension := by
  have more := step.extracted_subset
  obtain ⟨stores, guarded, tasks, extracted⟩ := genuine
  cases step with
  | @request n q quiet =>
    obtain ⟨own, fits, coherent, records⟩ := stores n
    rcases run : Store.perform q (P.writers.stores n) P.writers.files with ⟨r, s, fs⟩
    have kept := coherent.answer (.request q) P.writers.files
    rw [Store.answer_request run] at kept
    obtain ⟨coherent', own', fits', -⟩ := kept
    obtain ⟨records', guarded'⟩ := Store.contents_of_perform
      (fun p same => fits.symm ▸ (writable p (own ▸ same)).word n)
      (fun p same => (writable p (own ▸ same)).storable) records
      (fun p same => guarded p (own ▸ same)) quiet run
    rw [Writers.step_eq run]
    exact ⟨forall_update stores ⟨own'.trans own, fits'.trans fits, coherent', records'⟩,
      fun p same => guarded' p (own ▸ same), tasks, extracted⟩
  | @begin n indexer parse job fs xs planned =>
    refine ⟨fun n => ?_, fun p same => ?_, fun x listed => ?_, fun c listed => ?_⟩
    · obtain ⟨own, fits, coherent, records⟩ := stores n
      exact ⟨own, fits, coherent, records.mono fun _ _ shows_ => shows_.mono more⟩
    · exact (guarded p same).mono fun _ _ shows_ => shows_.mono more
    · rcases List.mem_append.mp listed with before | new
      · exact (tasks x before).mono more
      · obtain ⟨source, among, rfl⟩ := List.mem_map.mp new
        refine (Task.sourced_start _ source).mono fun c inside => ?_
        exact List.mem_append_right _ (List.mem_flatMap.mpr ⟨source, among, inside⟩)
    · rcases List.mem_append.mp listed with before | new
      · exact extracted c before
      · exact distance_of_sources planned c new
  | @work n t rest t' e s faults log picked fault step =>
    obtain ⟨own, fits, coherent, records⟩ := stores n
    have others : ∀ x ∈ (n, t) :: rest, x.2.Sourced f P.extracted :=
      fun x listed => tasks x (picked.mem_iff.mpr listed)
    obtain ⟨first, last⟩ := List.forall_mem_cons.mp others
    obtain ⟨sourced, records', coherent', own', fits', -⟩ :=
      first.step steady coherent records step
    exact ⟨forall_update stores ⟨own'.trans own, fits'.trans fits, coherent', records'⟩,
      guarded, List.forall_mem_cons.mpr ⟨sourced, last⟩, extracted⟩

/-- Stores in memory need no assumptions. -/
theorem Genuine.run_of_writable (steady : m.Steady f) (genuine : P.Genuine f path dimension)
    (run : Run m P P') (writable : ∀ p, path = some p → Writable f dimension P'.extracted) :
    P'.Genuine f path dimension := by
  induction run with
  | refl => exact genuine
  | tail _ step ih =>
    have before : ∀ p, path = some p → Writable f dimension _ := fun p own =>
      { writable p own with
        lines := fun c listed => (writable p own).lines c (step.extracted_subset c listed) }
    exact (ih before).step steady before step

theorem Genuine.run (steady : m.Steady f) (reads : ∀ text, ∀ x ∈ f text, Json.ReadsBack x)
    (word : ∀ n, dimension n < wordSize) (genuine : P.Genuine f path dimension) (run : Run m P P')
    (lines : ∀ c ∈ P'.extracted, c.startLine < wordSize ∧ c.endLine < wordSize) :
    P'.Genuine f path dimension :=
  genuine.run_of_writable steady run fun _ _ => ⟨reads, word, lines⟩

end Plant

end CodeSearch
