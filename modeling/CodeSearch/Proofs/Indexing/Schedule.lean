import Mathlib.Algebra.GroupWithZero.Nat
import Mathlib.Logic.Relation
import CodeSearch.Indexing.Run

/-! # Schedules of indexing

The files of a run are indexed at once, and the batches of a file are written while its next groups
are embedded. A schedule says who goes on when, so batches may be written and heard of in any order.
How many files go on together only narrows the choice. Doing all steps of one file after the other
is one of the schedules.
-/

namespace CodeSearch

namespace Indexing

/-- A group with its vectors, on the way to the backend. -/
structure Load where
  group : List Chunk
  vectors : List Embedding

namespace Load

def entries (l : Load) : List (String × Record) := entriesOf l.group l.vectors

def batch (l : Load) : Batch := .ofEntries l.entries

end Load

/-- A load and what the backend said to it. -/
abbrev Reply := Load × Except StoreError Unit

/-- What there is to index, under a name. -/
structure Source where
  name : String
  extraction : Extraction

namespace Source

def chunks (x : Source) : List Chunk := x.extraction.chunks

/-- The warnings of the extraction. -/
def noted (x : Source) : Stats :=
  x.extraction.warnings.foldl (fun stats warning => stats.addWarning warning.message) Stats.empty

end Source

/-- A source that is being indexed. -/
structure Task where
  source : Source
  /-- The groups that are not embedded yet. -/
  waiting : List (List Chunk)
  /-- The loads that are not written yet. -/
  flying : List Load
  /-- The answers that were not counted yet. -/
  landed : List Reply
  /-- The answers in the order in which they were counted. -/
  joined : List Reply
  /-- What ended the embedding before the last group. -/
  failure : Option StoreError

namespace Task

def start (n : Nat) (x : Source) : Task := ⟨x, groups n x.chunks, [], [], [], none⟩

/-- Nothing is left to do. -/
structure Over (t : Task) : Prop where
  waiting : t.waiting = []
  flying : t.flying = []
  landed : t.landed = []

def stats (t : Task) : Stats :=
  t.source.noted.merge (t.joined.foldl (fun stats a => countResult t.source.name stats a.2)
    (countEmbedded t.source.name t.source.chunks.length t.failure))

/-- The counts of tasks, added up. -/
def tally (ts : List Task) : Stats :=
  ts.foldl (fun total t => Workshop.countFile total t.stats) Stats.empty

/-- More than the steps that are left. -/
def effort (t : Task) : Nat :=
  3 * t.waiting.length + 2 * t.flying.length + t.landed.length + 1

end Task

variable {ε σ : Type}

/-- What all tasks work with, and the answers of the backend in order. -/
structure Bench (ε σ : Type) where
  embedder : ε
  backend : σ
  log : List Reply

/-- One step of a task. The next group is embedded, or ends the task if that fails; any load that is
on its way is written; any answer that came is counted. -/
inductive Task.Step (m : Embedder ε) (b : Backend σ) :
    Task × Bench ε σ → Task × Bench ε σ → Prop
  | embed {t : Task} {w : Bench ε σ} {g gs vectors e} (next : t.waiting = g :: gs)
      (embedded : m.embed (g.map (·.content)) w.embedder = (.ok vectors, e)) :
      Step m b (t, w)
        ({ t with waiting := gs, flying := t.flying ++ [⟨g, vectors⟩] }, { w with embedder := e })
  | stop {t : Task} {w : Bench ε σ} {g gs x e} (next : t.waiting = g :: gs)
      (refused : m.embed (g.map (·.content)) w.embedder = (.error x, e)) :
      Step m b (t, w) ({ t with waiting := [], failure := some x }, { w with embedder := e })
  | write {t : Task} {w : Bench ε σ} {l rest r s} (picked : t.flying.Perm (l :: rest))
      (answered : b.add l.batch w.backend = (r, s)) :
      Step m b (t, w)
        ({ t with flying := rest, landed := t.landed ++ [(l, r)] },
          { w with backend := s, log := w.log ++ [(l, r)] })
  | join {t : Task} {w : Bench ε σ} {a rest} (picked : t.landed.Perm (a :: rest)) :
      Step m b (t, w) ({ t with landed := rest, joined := t.joined ++ [a] }, w)

/-- The tasks of a run, and those that are over in the order in which they were counted. -/
structure Crew (ε σ : Type) where
  working : List Task
  finished : List Task
  bench : Bench ε σ

namespace Crew

def start (n : Nat) (xs : List Source) (w : Bench ε σ) : Crew ε σ := ⟨xs.map (Task.start n), [], w⟩

/-- The tasks of a crew. -/
def tasks (c : Crew ε σ) : List Task := c.working ++ c.finished

def total (c : Crew ε σ) : Stats := Task.tally c.finished

def effort (c : Crew ε σ) : Nat := (c.working.map Task.effort).sum

/-- Any task takes a step, or is counted if it is over. -/
inductive Step (m : Embedder ε) (b : Backend σ) : Crew ε σ → Crew ε σ → Prop
  | work {c : Crew ε σ} {t t' rest w} (picked : c.working.Perm (t :: rest))
      (step : Task.Step m b (t, c.bench) (t', w)) : Step m b c ⟨t' :: rest, c.finished, w⟩
  | finish {c : Crew ε σ} {t rest} (picked : c.working.Perm (t :: rest)) (ended : t.Over) :
      Step m b c ⟨rest, c.finished ++ [t], c.bench⟩

/-- Any number of steps, in any order. -/
abbrev Run (m : Embedder ε) (b : Backend σ) : Crew ε σ → Crew ε σ → Prop :=
  Relation.ReflTransGen (Step m b)

end Crew

/-! ## Every schedule comes to an end -/

section Progress

variable {m : Embedder ε} {b : Backend σ} {t t' : Task} {w w' : Bench ε σ} {c c' : Crew ε σ}

theorem Task.Step.source_eq (step : Task.Step m b (t, w) (t', w')) : t'.source = t.source := by
  cases step <;> rfl

theorem Task.Step.effort_lt (step : Task.Step m b (t, w) (t', w')) : t'.effort < t.effort := by
  cases step with
  | embed next =>
    simp only [effort, next, List.length_cons, List.length_append, List.length_nil]
    omega
  | stop next =>
    simp only [effort, next, List.length_cons, List.length_nil]
    omega
  | write picked =>
    have length := picked.length_eq
    simp only [effort, List.length_cons, List.length_append, List.length_nil] at length ⊢
    omega
  | join picked =>
    have length := picked.length_eq
    simp only [effort, List.length_cons] at length ⊢
    omega

/-- A task that is not over can go on. -/
theorem Task.exists_step (m : Embedder ε) (b : Backend σ) (t : Task) (w : Bench ε σ) :
    t.Over ∨ ∃ t' w', Task.Step m b (t, w) (t', w') := by
  cases waiting : t.waiting with
  | cons g gs =>
    right
    rcases embedded : m.embed (g.map (·.content)) w.embedder with ⟨x | vectors, e⟩
    · exact ⟨_, _, .stop waiting embedded⟩
    · exact ⟨_, _, .embed waiting embedded⟩
  | nil =>
    cases flying : t.flying with
    | cons l rest => exact .inr ⟨_, _, .write (.of_eq flying) rfl⟩
    | nil =>
      cases landed : t.landed with
      | cons a rest => exact .inr ⟨_, _, .join (.of_eq landed)⟩
      | nil => exact .inl ⟨waiting, flying, landed⟩

namespace Crew

theorem Step.effort_lt (step : Step m b c c') : c'.effort < c.effort := by
  cases step with
  | work picked step =>
    have sum := (picked.map Task.effort).sum_nat
    have less := step.effort_lt
    simp only [effort, List.map_cons, List.sum_cons] at sum ⊢
    omega
  | finish picked ended =>
    have sum := (picked.map Task.effort).sum_nat
    simp only [effort, Task.effort, List.map_cons, List.sum_cons] at sum ⊢
    omega

theorem exists_step (m : Embedder ε) (b : Backend σ) (c : Crew ε σ) :
    c.working = [] ∨ ∃ c', Step m b c c' := by
  cases working : c.working with
  | nil => exact .inl rfl
  | cons t rest =>
    right
    have picked : c.working.Perm (t :: rest) := .of_eq working
    rcases t.exists_step m b c.bench with ended | ⟨t', w', step⟩
    · exact ⟨_, .finish picked ended⟩
    · exact ⟨_, .work picked step⟩

/-- No step is the last before all tasks are over, and no crew takes steps for ever. -/
theorem exists_end (m : Embedder ε) (b : Backend σ) (c : Crew ε σ) :
    ∃ c', Run m b c c' ∧ c'.working = [] := by
  induction effort : c.effort using Nat.strongRecOn generalizing c with
  | _ n ih =>
    rcases c.exists_step m b with ended | ⟨c', step⟩
    · exact ⟨c, .refl, ended⟩
    · obtain ⟨last, run, ended⟩ := ih _ (effort ▸ step.effort_lt) c' rfl
      exact ⟨last, .head step run, ended⟩

end Crew

end Progress

/-! ## One step after the other -/

namespace Task

variable (m : Embedder ε) (b : Backend σ) (x : Source) (flying : List Load)
variable (landed joined : List Reply) (e : ε) (s : σ) (log : List Reply)

abbrev Run (m : Embedder ε) (b : Backend σ) : Task × Bench ε σ → Task × Bench ε σ → Prop :=
  Relation.ReflTransGen (Step m b)

/-- Embed all groups that wait. -/
theorem exists_run_embed (gs : List (List Chunk)) :
    ∃ loads, loads.map Load.batch = (embedGroups m gs e).1.batches ∧
      Run m b (⟨x, gs, flying, landed, joined, none⟩, ⟨e, s, log⟩)
        (⟨x, [], flying ++ loads, landed, joined, (embedGroups m gs e).1.failure⟩,
          ⟨(embedGroups m gs e).2, s, log⟩) := by
  induction gs generalizing flying e with
  | nil =>
    refine ⟨[], rfl, ?_⟩
    rw [List.append_nil]
    exact .refl
  | cons g gs ih =>
    rcases embedded : m.embed (g.map (·.content)) e with ⟨failed | vectors, e'⟩
    · refine ⟨[], ?_, ?_⟩
      · simp only [embedGroups, embedded, List.map_nil]
      · simp only [embedGroups, embedded, List.append_nil]
        exact .single (.stop rfl embedded)
    · obtain ⟨loads, batches, run⟩ := ih (flying ++ [⟨g, vectors⟩]) e'
      refine ⟨⟨g, vectors⟩ :: loads, ?_, .head (.embed rfl embedded) ?_⟩
      · simp only [embedGroups, embedded, List.map_cons, batches]
        rfl
      · rw [List.append_assoc, List.singleton_append] at run
        simpa only [embedGroups, embedded] using run

/-- Write all loads that are on their way. -/
theorem exists_run_write (gs : List (List Chunk)) (failure : Option StoreError)
    (loads : List Load) :
    ∃ answers log', answers.map (·.2) = (addAll b (loads.map Load.batch) s).1 ∧
      Run m b (⟨x, gs, loads, landed, joined, failure⟩, ⟨e, s, log⟩)
        (⟨x, gs, [], landed ++ answers, joined, failure⟩,
          ⟨e, (addAll b (loads.map Load.batch) s).2, log'⟩) := by
  induction loads generalizing landed s log with
  | nil =>
    refine ⟨[], log, rfl, ?_⟩
    rw [List.append_nil]
    exact .refl
  | cons l loads ih =>
    rcases added : b.add l.batch s with ⟨r, s'⟩
    obtain ⟨answers, log', results, run⟩ := ih (landed ++ [(l, r)]) s' (log ++ [(l, r)])
    refine ⟨(l, r) :: answers, log', ?_, .head (.write (.refl _) added) ?_⟩
    · simp only [List.map_cons, addAll, added, results]
    · rw [List.append_assoc, List.singleton_append] at run
      simpa only [List.map_cons, addAll, added] using run

/-- Count all answers that came. -/
theorem run_join (gs : List (List Chunk)) (failure : Option StoreError) (answers : List Reply) :
    Run m b (⟨x, gs, flying, answers, joined, failure⟩, ⟨e, s, log⟩)
      (⟨x, gs, flying, [], joined ++ answers, failure⟩, ⟨e, s, log⟩) := by
  induction answers generalizing joined with
  | nil => rw [List.append_nil]
  | cons a answers ih =>
    have rest := ih (joined ++ [a])
    rw [List.append_assoc, List.singleton_append] at rest
    exact .head (.join (.refl _)) rest

/-- The chunks of a source may be embedded first, then written, and counted last. -/
theorem exists_run_writeChunks (n : Nat) :
    ∃ t log', t.Over ∧ t.stats = x.noted.merge (writeChunks m b n x.name x.chunks (e, s)).1 ∧
      Run m b (start n x, ⟨e, s, log⟩) (t, ⟨(writeChunks m b n x.name x.chunks (e, s)).2.1,
        (writeChunks m b n x.name x.chunks (e, s)).2.2, log'⟩) := by
  obtain ⟨loads, batches, embeds⟩ := exists_run_embed m b x [] [] [] e s log (groups n x.chunks)
  generalize embedded : embedGroups m (groups n x.chunks) e = out at batches embeds
  obtain ⟨answers, log', results, writes⟩ :=
    exists_run_write m b x [] [] out.2 s log [] out.1.failure loads
  rw [batches] at results writes
  have joins :=
    run_join m b x [] [] out.2 (addAll b out.1.batches s).2 log' [] out.1.failure answers
  refine ⟨⟨x, [], [], [], answers, out.1.failure⟩, log', ⟨rfl, rfl, rfl⟩, ?_, ?_⟩
  · simp only [stats, writeChunks, embedded, ← results, List.foldl_map]
  · simp only [writeChunks, embedded]
    exact embeds.trans (writes.trans joins)

end Task

namespace Crew

variable {m : Embedder ε} {b : Backend σ} {rest : List Task}

/-- A crew may leave all steps to its first task. -/
theorem run_first {x y : Task × Bench ε σ} (finished : List Task) (run : Task.Run m b x y) :
    Run m b ⟨x.1 :: rest, finished, x.2⟩ ⟨y.1 :: rest, finished, y.2⟩ := by
  induction run with
  | refl => exact .refl
  | tail _ step ih => exact ih.tail (.work (.refl _) step)

end Crew

end Indexing

/-- What an indexer can be asked for. -/
inductive Job where
  | source (name ext : String) (text : Bytes)
  | files (files : List SourceFile)
  | paths (paths : List Path)
  | directory (p : Path)

namespace Workshop

open Indexing

variable {ε σ : Type}

/-- Do a job, one file after the other. -/
def run (k : Workshop ε σ) : Job → Run ε σ
  | .source name ext text => k.indexSource name ext text
  | .files files => k.indexFiles files
  | .paths paths => k.indexPaths paths
  | .directory p => k.indexDirectory p

/-- What a file is to be indexed as. -/
def sourceOf (k : Workshop ε σ) (fs : FileSystem) (f : SourceFile) : Source :=
  ⟨f.name, Extraction.ofFile k.parse k.indexer.options fs f.path f.name⟩

/-- The sources of a job. -/
def sources (k : Workshop ε σ) (fs : FileSystem) : Job → Except IndexError (List Source)
  | .source name ext text =>
    .ok [⟨name, Extraction.ofSource k.parse k.indexer.options text name ext⟩]
  | .files files => .ok (files.map (k.sourceOf fs))
  | .paths paths => (k.collect fs paths).map fun files => files.map (k.sourceOf fs)
  | .directory p =>
    if fs.isDirectory p then .ok ((k.sourcesIn fs p).map (k.sourceOf fs))
    else .error (.badPath p.toText)

/-- The sources of a job, if the backend is ready for it. A directory is looked for first. -/
def undertake (k : Workshop ε σ) (job : Job) (w : World ε σ) : Except IndexError (List Source) :=
  match job with
  | .directory _ => do
    let xs ← k.sources w.files job
    k.ready w
    return xs
  | _ => do
    k.ready w
    k.sources w.files job

/-- What can come of a job: it is refused, or some schedule comes to its end and the backend is
flushed. -/
inductive Runs (k : Workshop ε σ) (job : Job) (w : World ε σ) :
    Except IndexError Stats × World ε σ → Prop
  | refused {e} (refused : k.undertake job w = .error e) : Runs k job w (.error e, w)
  | done {xs c} (undertaken : k.undertake job w = .ok xs)
      (run : Crew.Run k.embedder k.backend
        (.start k.indexer.batchSize xs ⟨w.embedder, w.backend, []⟩) c) (ended : c.working = []) :
      Runs k job w
        (k.finish c.total { w with embedder := c.bench.embedder, backend := c.bench.backend })

variable {k : Workshop ε σ} {w : World ε σ} {job : Job}

theorem undertake_ok {xs : List Source} :
    k.undertake job w = .ok xs ↔ k.ready w = .ok () ∧ k.sources w.files job = .ok xs := by
  cases isReady : k.ready w <;> cases planned : k.sources w.files job <;> cases job <;>
    simp [undertake, isReady, planned, bind, Except.bind, pure, Except.pure]

/-- Index sources one after the other, and add up the counts. -/
def writeAll (k : Workshop ε σ) : List Source → Stats × World ε σ → Stats × World ε σ
  | [], out => out
  | x :: xs, out =>
    writeAll k xs (countFile out.1 (k.write x.name x.extraction out.2).1,
      (k.write x.name x.extraction out.2).2)

/-- A crew may do the sources one after the other. -/
theorem exists_run_writeAll (xs : List Source) (finished : List Task) (log : List Reply) :
    ∃ c, Crew.Run k.embedder k.backend
        ⟨xs.map (Task.start k.indexer.batchSize), finished, ⟨w.embedder, w.backend, log⟩⟩ c ∧
      c.working = [] ∧ k.writeAll xs (Task.tally finished, w) =
        (c.total, { w with embedder := c.bench.embedder, backend := c.bench.backend }) := by
  induction xs generalizing w finished log with
  | nil => exact ⟨_, .refl, rfl, rfl⟩
  | cons x xs ih =>
    obtain ⟨t, log', ended, counted, run⟩ := Task.exists_run_writeChunks k.embedder k.backend x
      w.embedder w.backend log k.indexer.batchSize
    obtain ⟨c, rest, last, total⟩ :=
      ih (w := (k.write x.name x.extraction w).2) (finished ++ [t]) log'
    have whole := (Crew.run_first finished run).trans (.head (.finish (.refl _) ended) rest)
    refine ⟨c, whole, last, ?_⟩
    have first : Task.tally (finished ++ [t]) =
        countFile (Task.tally finished) (k.write x.name x.extraction w).1 := by
      rw [Task.tally, List.foldl_append, List.foldl_cons, List.foldl_nil, counted]
      rfl
    rw [first] at total
    exact total

theorem files_write (k : Workshop ε σ) (name : String) (x : Extraction) (w : World ε σ) :
    (k.write name x w).2.files = w.files := rfl

theorem files_processFile (k : Workshop ε σ) (f : SourceFile) (w : World ε σ) :
    (k.processFile f w).2.files = w.files := by
  rw [processFile, files_write]

/-- Writing chunks leaves the files, so each can be read when its turn comes. -/
theorem writeAll_map (files : List SourceFile) (total : Stats) :
    k.writeAll (files.map (k.sourceOf w.files)) (total, w) =
      files.foldl (fun (total, w) f =>
        let (one, w) := k.processFile f w
        (countFile total one, w)) (total, w) := by
  induction files generalizing w total with
  | nil => rfl
  | cons f files ih =>
    have first : k.write (k.sourceOf w.files f).name (k.sourceOf w.files f).extraction w =
        k.processFile f w := by
      rw [processFile, sourceOf]
    have next := ih (w := (k.processFile f w).2) (countFile total (k.processFile f w).1)
    rw [files_processFile] at next
    simp only [List.map_cons, writeAll, List.foldl_cons, first, next]

theorem indexFiles_eq (isReady : k.ready w = .ok ()) (files : List SourceFile) :
    k.indexFiles files w =
      k.finish (k.writeAll (files.map (k.sourceOf w.files)) (Stats.empty, w)).1
        (k.writeAll (files.map (k.sourceOf w.files)) (Stats.empty, w)).2 := by
  rw [indexFiles, isReady, writeAll_map]

theorem indexSource_eq (isReady : k.ready w = .ok ()) (name ext : String) (text : Bytes) :
    k.indexSource name ext text w =
      let x := Source.mk name (Extraction.ofSource k.parse k.indexer.options text name ext)
      k.finish (k.writeAll [x] (Stats.empty, w)).1 (k.writeAll [x] (Stats.empty, w)).2 := by
  simp only [indexSource, isReady, writeAll]

/-- A job that is not refused writes its sources and flushes the backend. -/
theorem run_eq (k : Workshop ε σ) (job : Job) (w : World ε σ) :
    k.run job w =
      match k.undertake job w with
      | .error e => (.error e, w)
      | .ok xs =>
        k.finish (k.writeAll xs (Stats.empty, w)).1 (k.writeAll xs (Stats.empty, w)).2 := by
  cases isReady : k.ready w with
  | error e =>
    cases job with
    | directory p =>
      cases there : w.files.isDirectory p <;>
        simp [run, indexDirectory, undertake, sources, there, isReady, bind, Except.bind]
    | _ =>
      simp [run, indexSource, indexFiles, indexPaths, undertake, isReady, bind, Except.bind]
  | ok _ =>
    cases job with
    | source name ext text =>
      simp [run, indexSource_eq isReady, undertake, sources, isReady, bind, Except.bind]
    | files files =>
      simp [run, indexFiles_eq isReady, undertake, sources, isReady, bind, Except.bind]
    | paths paths =>
      cases found : k.collect w.files paths <;>
        simp [run, indexPaths, indexFiles_eq isReady, undertake, sources, found, isReady, bind,
          Except.bind, Except.map]
    | directory p =>
      cases there : w.files.isDirectory p <;>
        simp [run, indexDirectory, indexFiles_eq isReady, undertake, sources, there, isReady, bind,
          Except.bind, pure, Except.pure]

/-- Doing a job file by file is one of the ways it can go. -/
theorem runs_run (k : Workshop ε σ) (job : Job) (w : World ε σ) : k.Runs job w (k.run job w) := by
  rw [run_eq]
  cases undertaken : k.undertake job w with
  | error e => exact .refused undertaken
  | ok xs =>
    obtain ⟨c, run, ended, total⟩ := exists_run_writeAll (k := k) (w := w) xs [] []
    have counted : k.writeAll xs (Stats.empty, w) = _ := total
    simp only [counted]
    exact .done undertaken run ended

end Workshop

end CodeSearch
