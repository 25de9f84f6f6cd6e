import Mathlib.Data.List.Perm.Basic
import CodeSearch.Proofs.Indexing.Collect
import CodeSearch.Proofs.Indexing.Identity
import CodeSearch.Proofs.Indexing.Plant

/-! # Which arguments matter

A run writes chunks under the names of their files, whatever paths led to these. So other arguments
for the same files leave what the given ones leave if the files that come under one name have the
same chunks. As the grammar goes by the path that is given and not by the file, they need not.
-/

namespace CodeSearch

namespace Indexing

variable {ε σ : Type} {m : Embedder ε} {b : Backend σ}

/-- Sources with one name and the same chunks. -/
structure Source.Alike (x y : Source) : Prop where
  name : y.name = x.name
  chunks : y.chunks = x.chunks

/-- Tasks of such sources that have done the same. -/
structure Task.Alike (t u : Task) : Prop where
  source : t.source.Alike u.source
  done : u = { t with source := u.source }

/-- What a task does next does not depend on its source. -/
theorem Task.Alike.step {t t' u : Task} {w w' : Bench ε σ} (alike : t.Alike u)
    (step : Task.Step m b (t, w) (t', w')) :
    ∃ u', Task.Step m b (u, w) (u', w') ∧ t'.Alike u' := by
  obtain ⟨source, done⟩ := alike
  generalize u.source = y at source done
  subst done
  cases step with
  | embed next embedded => exact ⟨_, .embed next embedded, source, rfl⟩
  | stop next refused => exact ⟨_, .stop next refused, source, rfl⟩
  | write picked answered => exact ⟨_, .write picked answered, source, rfl⟩
  | join picked => exact ⟨_, .join picked, source, rfl⟩

/-- Crews with such tasks at one bench. -/
structure Crew.Alike (c d : Crew ε σ) : Prop where
  working : List.Forall₂ Task.Alike c.working d.working
  bench : d.bench = c.bench

theorem Crew.Alike.step {c c' d : Crew ε σ} (alike : c.Alike d) (step : Crew.Step m b c c') :
    ∃ d', Crew.Step m b d d' ∧ c'.Alike d' := by
  obtain ⟨working, bench⟩ := alike
  cases step with
  | @work t t' rest w picked step =>
    obtain ⟨all, pairs, picked'⟩ := List.perm_comp_forall₂ picked.symm working
    obtain ⟨u, others, same, rest', rfl⟩ := List.forall₂_cons_left_iff.mp pairs
    obtain ⟨u', step', same'⟩ := same.step step
    rw [← bench] at step'
    exact ⟨_, .work picked'.symm step', .cons same' rest', rfl⟩
  | @finish t rest picked ended =>
    obtain ⟨all, pairs, picked'⟩ := List.perm_comp_forall₂ picked.symm working
    obtain ⟨u, others, same, rest', rfl⟩ := List.forall₂_cons_left_iff.mp pairs
    have ended' : u.Over := by
      rw [same.done]
      exact ⟨ended.waiting, ended.flying, ended.landed⟩
    exact ⟨_, .finish picked'.symm ended', rest', bench⟩

/-- Each schedule of the one is a schedule of the other. -/
theorem Crew.Alike.run {c c' d : Crew ε σ} (alike : c.Alike d) (run : Crew.Run m b c c') :
    ∃ d', Crew.Run m b d d' ∧ c'.Alike d' := by
  induction run with
  | refl => exact ⟨d, .refl, alike⟩
  | tail _ step ih =>
    obtain ⟨d₁, run, alike⟩ := ih
    obtain ⟨d₂, step, alike⟩ := alike.step step
    exact ⟨d₂, run.tail step, alike⟩

theorem Crew.alike_start {n : Nat} {xs ys : List Source} (alike : List.Forall₂ Source.Alike xs ys)
    (w : Bench ε σ) : (Crew.start n xs w).Alike (.start n ys w) := by
  refine ⟨?_, rfl⟩
  rw [start, start, List.forall₂_map_left_iff, List.forall₂_map_right_iff]
  refine alike.imp fun x y same => ⟨same, ?_⟩
  simp only [Task.start, same.chunks]

end Indexing

namespace Workshop

open Indexing SourceFile

section Runs

variable {ε σ : Type} {k : Workshop ε σ} {w w' : World ε σ} {job job' : Job} {xs ys : List Source}
variable {r : Except IndexError Stats}

theorem finish_snd (k : Workshop ε σ) (stats stats' : Stats) (w : World ε σ) :
    (k.finish stats w).2 = (k.finish stats' w).2 := by
  unfold finish
  split <;> rfl

/-- What a job leaves depends on the names and the chunks of its sources only. -/
theorem Runs.of_alike (planned : k.sources w.files job = .ok xs)
    (planned' : k.sources w.files job' = .ok ys) (alike : List.Forall₂ Source.Alike xs ys)
    (runs : k.Runs job w (r, w')) : ∃ r', k.Runs job' w (r', w') := by
  generalize outcome : (r, w') = out at runs
  cases runs with
  | @refused e refused =>
    obtain rfl := (Prod.mk.inj outcome).2.symm
    cases isReady : k.ready w with
    | error e' =>
      refine ⟨_, .refused (e := e') ?_⟩
      cases job' <;> simp [undertake, isReady, planned', bind, Except.bind]
    | ok _ =>
      cases refused.symm.trans (undertake_ok.mpr ⟨isReady, planned⟩)
  | @done xs' c undertaken run ended =>
    obtain ⟨isReady, planned₂⟩ := undertake_ok.mp undertaken
    obtain rfl := Except.ok.inj (planned.symm.trans planned₂)
    obtain ⟨d, run', same⟩ := (Crew.alike_start alike _).run run
    have ended' : d.working = [] := by
      have pairs := same.working
      rw [ended] at pairs
      exact List.forall₂_nil_left_iff.mp pairs
    have runs' := Runs.done (undertake_ok.mpr ⟨isReady, planned'⟩) run' ended'
    rw [same.bench] at runs'
    obtain rfl := (congrArg Prod.snd outcome).trans (finish_snd k c.total d.total _)
    exact ⟨_, runs'⟩

end Runs

variable {ε : Type} {k : Workshop ε Store} {fs : FileSystem} {P Q : List Path} {dimension : Nat}
variable {f g : SourceFile} {c : Chunk} {v : String → Embedding}

/-- The chunks of a file. -/
def chunksOf (k : Workshop ε Store) (fs : FileSystem) (f : SourceFile) : List Chunk :=
  (k.sourceOf fs f).chunks

/-- A chunk of some file that is reached. -/
def Yields (k : Workshop ε Store) (fs : FileSystem) (P : List Path) (c : Chunk) : Prop :=
  ∃ f, k.Reaches fs P f ∧ c ∈ k.chunksOf fs f

/-- Files that are reached under one name have the same chunks. -/
def Agrees (k : Workshop ε Store) (fs : FileSystem) (P : List Path) : Prop :=
  ∀ f g, k.Reaches fs P f → k.Reaches fs P g → f.name = g.name → k.chunksOf fs f = k.chunksOf fs g

/-- Files that are reached under one name have the same chunks, in whatever order. -/
def Shares (k : Workshop ε Store) (fs : FileSystem) (P : List Path) : Prop :=
  ∀ f g, k.Reaches fs P f → k.Reaches fs P g → f.name = g.name →
    ∀ c, c ∈ k.chunksOf fs f ↔ c ∈ k.chunksOf fs g

/-- From one ready store that nobody else writes, other arguments for the same files come to the
same records, whatever the schedules. -/
def Indifferent (k : Workshop ε Store) (fs : FileSystem) (P : List Path) (dimension : Nat) : Prop :=
  ∀ Q, fs.Respelled P Q → ∀ w h, w.files = fs → w.backend.dimension = dimension →
    w.backend.Serves h → w.backend.Sole fs → ∀ r w₁ r' w₂, k.Runs (.paths P) w (r, w₁) →
      k.Runs (.paths Q) w (r', w₂) → w₁.backend.records = w₂.backend.records

/-- A workshop over a store whose texts all have vectors, one each, of a length. -/
structure Able (k : Workshop ε Store) (v : String → Embedding) (dimension : Nat) : Prop where
  store : k.backend = storeBackend
  pointwise : k.embedder.Pointwise v
  lengths : ∀ text, (v text).length = dimension
  positive : 0 < k.indexer.batchSize

theorem source_of_mem_chunksOf (listed : c ∈ k.chunksOf fs f) : c.source = f.name := by
  change c ∈ (Extraction.ofFile k.parse k.indexer.options fs f.path f.name).chunks at listed
  unfold Extraction.ofFile at listed
  dsimp only at listed
  split at listed
  · cases listed
  · rename_i l supported
    split at listed
    · cases listed
    · rename_i text _
      have among : c ∈ (Extraction.ofSource k.parse k.indexer.options text f.name
          (f.path.extension?.getD "")).chunks := by
        rw [Extraction.ofSource, supported]
        exact listed
      exact Extraction.source_eq among

/-- The sources that arguments for files come to. -/
theorem sources_eq (there : ∀ p ∈ P, fs.IsThere p) : k.sources fs (.paths P) =
    .ok ((distinct (sort (P.flatMap (k.filesAt fs)))).map (k.sourceOf fs)) := by
  rw [sources, collect_eq there]
  rfl

theorem mem_chunks_iff : c ∈ ((distinct (sort (P.flatMap (k.filesAt fs)))).map
      (k.sourceOf fs)).flatMap Source.chunks ↔
    ∃ f ∈ distinct (sort (P.flatMap (k.filesAt fs))), c ∈ k.chunksOf fs f := by
  rw [List.flatMap_map, List.mem_flatMap]
  rfl

/-- The one file of a name that other arguments for the same files come to. -/
theorem exists_counterpart (respelled : fs.Respelled P Q)
    (listed : f ∈ distinct (sort (P.flatMap (k.filesAt fs)))) :
    ∃ g ∈ distinct (sort (Q.flatMap (k.filesAt fs))), g.name = f.name ∧
      k.Reaches fs P f ∧ k.Reaches fs P g := by
  have named : f.name ∈ (distinct (sort (P.flatMap (k.filesAt fs)))).map (·.name) :=
    List.mem_map_of_mem listed
  rw [← map_name_collected respelled] at named
  obtain ⟨g, listed', same⟩ := List.mem_map.mp named
  exact ⟨g, listed', same, reaches_of_collected (.order (.refl _)) listed,
    reaches_of_collected respelled listed'⟩

/-- If files of one name have the same chunks, other arguments come to like sources. -/
theorem Agrees.alike (agrees : k.Agrees fs P) (respelled : fs.Respelled P Q) :
    List.Forall₂ Source.Alike
      ((distinct (sort (P.flatMap (k.filesAt fs)))).map (k.sourceOf fs))
      ((distinct (sort (Q.flatMap (k.filesAt fs)))).map (k.sourceOf fs)) := by
  have pairs : List.Forall₂ (fun f g : SourceFile => f.name = g.name)
      (distinct (sort (P.flatMap (k.filesAt fs)))) (distinct (sort (Q.flatMap (k.filesAt fs)))) := by
    have names := map_name_collected (k := k) respelled
    rwa [eq_comm, ← List.forall₂_eq_eq_eq, List.forall₂_map_left_iff,
      List.forall₂_map_right_iff] at names
  obtain ⟨length, each⟩ := List.forall₂_iff_zip.mp pairs
  rw [List.forall₂_map_left_iff, List.forall₂_map_right_iff]
  refine List.forall₂_iff_zip.mpr ⟨length, fun {f g} listed => ?_⟩
  obtain ⟨left, right⟩ := List.of_mem_zip listed
  exact ⟨(each listed).symm, agrees g f (reaches_of_collected respelled right)
    (reaches_of_collected (.order (.refl _)) left) (each listed).symm⟩

/-- If files of one name share their chunks, other arguments come to the same chunks. -/
theorem Shares.mem_iff (shares : k.Shares fs P) (respelled : fs.Respelled P Q) (c : Chunk) :
    (∃ f ∈ distinct (sort (Q.flatMap (k.filesAt fs))), c ∈ k.chunksOf fs f) ↔
      ∃ f ∈ distinct (sort (P.flatMap (k.filesAt fs))), c ∈ k.chunksOf fs f := by
  constructor
  · rintro ⟨g, listed, inside⟩
    have named : g.name ∈ (distinct (sort (Q.flatMap (k.filesAt fs)))).map (·.name) :=
      List.mem_map_of_mem listed
    rw [map_name_collected respelled] at named
    obtain ⟨f, listed', same⟩ := List.mem_map.mp named
    exact ⟨f, listed', (shares g f (reaches_of_collected respelled listed)
      (reaches_of_collected (.order (.refl _)) listed') same.symm c).mp inside⟩
  · rintro ⟨f, listed, inside⟩
    obtain ⟨g, listed', same, reaches, reaches'⟩ := exists_counterpart respelled listed
    exact ⟨g, listed', (shares f g reaches reaches' same.symm c).mp inside⟩

/-- No two chunks of files that are reached fight for one id. -/
def KeepsApart (k : Workshop ε Store) (fs : FileSystem) (P : List Path) : Prop :=
  ∀ c d, k.Yields fs P c → k.Yields fs P d → c.id = d.id →
    c.content = d.content ∧ c.toMetadata = d.toMetadata

theorem yields_of_collected (respelled : fs.Respelled P Q)
    (listed : c ∈ ((distinct (sort (Q.flatMap (k.filesAt fs)))).map
      (k.sourceOf fs)).flatMap Source.chunks) : k.Yields fs P c := by
  obtain ⟨f, among, inside⟩ := mem_chunks_iff.mp listed
  exact ⟨f, reaches_of_collected respelled among, inside⟩

/-- What a run leaves in a store that nobody else writes. -/
theorem records_of_respelled {w w' : World ε Store} {h : Holdings}
    {r : Except IndexError Stats} (able : k.Able v dimension) (apart : k.KeepsApart fs P)
    (there : ∀ p ∈ P, fs.IsThere p) (respelled : fs.Respelled P Q) (files : w.files = fs)
    (length : w.backend.dimension = dimension) (serves : w.backend.Serves h)
    (sole : w.backend.Sole fs) (runs : k.Runs (.paths Q) w (r, w')) :
    w'.backend.records = h.records.insertAll
      ((((distinct (sort (Q.flatMap (k.filesAt fs)))).map (k.sourceOf fs)).flatMap
        Source.chunks).map (entry v)) := by
  obtain ⟨store, pointwise, lengths, positive⟩ := able
  subst files
  have planned := sources_eq (k := k) (respelled.isThere there)
  have tells : Apart (((distinct (sort (Q.flatMap (k.filesAt w.files)))).map
      (k.sourceOf w.files)).flatMap Source.chunks) := fun c listed d listed' =>
    apart c d (yields_of_collected respelled listed) (yields_of_collected respelled listed')
  obtain ⟨h', serves', records, -⟩ := records_of_runs store pointwise
    (fun text => (lengths text).trans length.symm) positive serves sole planned tells runs
  rw [Store.records, serves'.1]
  exact records

/-- Files of one name that share their chunks leave the same records. -/
theorem Shares.indifferent (shares : k.Shares fs P) (able : k.Able v dimension)
    (apart : k.KeepsApart fs P) (there : ∀ p ∈ P, fs.IsThere p) :
    k.Indifferent fs P dimension := by
  intro Q respelled w h files length serves sole r w₁ r' w₂ runs runs'
  have same : fs.Respelled P P := .order (.refl P)
  rw [records_of_respelled able apart there same files length serves sole runs,
    records_of_respelled able apart there respelled files length serves sole runs']
  refine (Table.insertAll_congr (Apart.agree (fun c listed d listed' => apart c d
    (yields_of_collected same listed) (yields_of_collected same listed')) v) (fun e => ?_) _).symm
  rw [List.mem_map, List.mem_map]
  simp only [mem_chunks_iff, shares.mem_iff respelled]

theorem distance_of_mem_chunksOf (listed : c ∈ k.chunksOf fs f) : c.distance = none := by
  change c ∈ (Extraction.ofFile k.parse k.indexer.options fs f.path f.name).chunks at listed
  exact Plant.distance_ofFile listed

theorem eq_of_collected (listed : f ∈ distinct (sort (Q.flatMap (k.filesAt fs))))
    (listed' : g ∈ distinct (sort (Q.flatMap (k.filesAt fs)))) (same : f.name = g.name) : f = g := by
  have first := mem_distinct_sort.mp listed
  rw [same, mem_distinct_sort.mp listed'] at first
  exact (Option.some.inj first).symm

/-- A record of a chunk that arguments leave tells that the one file of its name has the chunk. -/
theorem mem_chunksOf_of_records {r : Record}
    (listed : g ∈ distinct (sort (Q.flatMap (k.filesAt fs)))) (source : c.source = g.name)
    (fresh : c.distance = none) (shows_ : r = Record.ofChunk (v c.content) c)
    (found : (Table.empty.insertAll ((((distinct (sort (Q.flatMap (k.filesAt fs)))).map
      (k.sourceOf fs)).flatMap Source.chunks).map (entry v))).get? c.id = some r) :
    c ∈ k.chunksOf fs g := by
  subst shows_
  rcases Table.mem_of_get?_insertAll found with added | none_
  · obtain ⟨d, among, same⟩ := List.mem_map.mp added
    obtain ⟨g', listed', inside⟩ := mem_chunks_iff.mp among
    have record := (Prod.mk.inj same).2
    have content : d.content = c.content := congrArg Record.document record
    have metadata : d.toMetadata = c.toMetadata := congrArg Record.metadata record
    have whole : d = c := by
      have distance := (distance_of_mem_chunksOf inside).trans fresh.symm
      obtain ⟨_, _, _⟩ := d
      obtain ⟨_, _, _⟩ := c
      simp_all
    subst whole
    rw [eq_of_collected listed listed' (source.symm.trans (source_of_mem_chunksOf inside))]
    exact inside
  · cases none_

/-- An empty store in memory. -/
def blankWorld (e : ε) (dimension : Nat) (fs : FileSystem) : World ε Store :=
  ⟨e, ⟨none, dimension, .l2, some ⟨.empty, .empty dimension .l2, .empty⟩⟩, fs⟩

/-- A chunk of one file of a name is one of any other that is reached, if all arguments leave the
same. -/
theorem Indifferent.mem_of_mem (indifferent : k.Indifferent fs P dimension)
    (able : k.Able v dimension) (apart : k.KeepsApart fs P) (there : ∀ p ∈ P, fs.IsThere p) (e : ε)
    (reaches : k.Reaches fs P f) (reaches' : k.Reaches fs P g) (same : f.name = g.name)
    (inside : c ∈ k.chunksOf fs f) : c ∈ k.chunksOf fs g := by
  obtain ⟨Q, respelled, listed⟩ := reaches.exists_collected
  obtain ⟨R, respelled', listed'⟩ := reaches'.exists_collected
  have sole : (blankWorld e dimension fs).backend.Sole fs := Store.sole_of_memory rfl
  -- the run of `P` stands between those that come to `f` and to `g`
  have left (S : List Path) (respelledS : fs.Respelled P S) :
      Table.empty.insertAll ((((distinct (sort (P.flatMap (k.filesAt fs)))).map
        (k.sourceOf fs)).flatMap Source.chunks).map (entry v)) =
      Table.empty.insertAll ((((distinct (sort (S.flatMap (k.filesAt fs)))).map
        (k.sourceOf fs)).flatMap Source.chunks).map (entry v)) := by
    have here := k.runs_run (.paths P) (blankWorld e dimension fs)
    have away := k.runs_run (.paths S) (blankWorld e dimension fs)
    have left := records_of_respelled able apart there (.order (.refl P)) rfl rfl ⟨rfl, rfl⟩ sole here
    have right := records_of_respelled able apart there respelledS rfl rfl ⟨rfl, rfl⟩ sole away
    exact left.symm.trans ((indifferent S respelledS _ _ rfl rfl ⟨rfl, rfl⟩ sole _ _ _ _ here
      away).trans right)
  have held : (Table.empty.insertAll ((((distinct (sort (Q.flatMap (k.filesAt fs)))).map
      (k.sourceOf fs)).flatMap Source.chunks).map (entry v))).get? c.id =
        some (Record.ofChunk (v c.content) c) :=
    Apart.get?_insertAll (fun c among d among' => apart c d
      (yields_of_collected respelled among) (yields_of_collected respelled among')) v _
      (mem_chunks_iff.mpr ⟨f, listed, inside⟩)
  rw [(left Q respelled).symm.trans (left R respelled')] at held
  exact mem_chunksOf_of_records listed' ((source_of_mem_chunksOf inside).trans same)
    (distance_of_mem_chunksOf inside) rfl held

/-- Files of one name have the same chunks if they are at one place and their paths are taken for
sources of one language. -/
theorem agrees_of_language (alike : ∀ f g, k.Reaches fs P f → k.Reaches fs P g → f.name = g.name →
    (∃ place, fs.canonical? f.path = .ok place ∧ fs.canonical? g.path = .ok place) ∧
      Language.ofExtension? (f.path.extension?.getD "") =
        Language.ofExtension? (g.path.extension?.getD "")) : k.Agrees fs P := by
  intro f g reaches reaches' same
  obtain ⟨⟨place, own, own'⟩, language⟩ := alike f g reaches reaches' same
  have read : fs.read f.path = fs.read g.path := by
    rw [FileSystem.read, FileSystem.read, FileSystem.entry?_congr own' own]
  change (Extraction.ofFile k.parse k.indexer.options fs f.path f.name).chunks =
    (Extraction.ofFile k.parse k.indexer.options fs g.path g.name).chunks
  unfold Extraction.ofFile
  dsimp only
  rw [language, read, same]
  cases Language.ofExtension? (g.path.extension?.getD "") with
  | none => rfl
  | some l => cases fs.read g.path <;> rfl

/-- Arguments that lead to files or directories collect each name once and, if files are named below
a canonical path, each place once. Other arguments for the same files collect the same names. If the
files that may come under one name have the same chunks, any run of the one leaves what some run of
the other leaves, whatever the embedder and the backend do. If no two of their chunks fight for one
id, all such arguments leave the same records in a store exactly if these files share their
chunks. -/
theorem indifferent_iff [Nonempty ε] (k : Workshop ε Store) (there : ∀ p ∈ P, fs.IsThere p) :
    (∀ Q, fs.Respelled P Q → ∃ files files', k.collect fs P = .ok files ∧
      k.collect fs Q = .ok files' ∧ files'.map (·.name) = files.map (·.name) ∧
      files'.Pairwise (fun f g => f.name < g.name) ∧
      (fs.canonicalOrSelf k.indexer.anchor = k.indexer.anchor →
        files'.Pairwise fun f g => fs.canonicalOrSelf f.path ≠ fs.canonicalOrSelf g.path)) ∧
    (k.Agrees fs P → ∀ Q, fs.Respelled P Q → ∀ w w' : World ε Store, w.files = fs →
      ((∃ r, k.Runs (.paths P) w (r, w')) ↔ ∃ r, k.Runs (.paths Q) w (r, w'))) ∧
    ∀ v dimension, k.Able v dimension → k.KeepsApart fs P →
      (k.Indifferent fs P dimension ↔ k.Shares fs P) := by
  refine ⟨fun Q respelled => ?_, fun agrees Q respelled w w' files => ?_,
    fun v dimension able apart => ⟨fun indifferent => ?_, fun shares => ?_⟩⟩
  · exact ⟨_, _, collect_eq there, collect_eq (respelled.isThere there),
      map_name_collected respelled, (distinct_spec (pairwise_sort _)).1,
      pairwise_canonical_collected⟩
  · subst files
    have planned := sources_eq (k := k) there
    have planned' := sources_eq (k := k) (respelled.isThere there)
    have alike := agrees.alike respelled
    constructor
    · rintro ⟨r, runs⟩
      exact runs.of_alike planned planned' alike
    · rintro ⟨r, runs⟩
      exact runs.of_alike planned' planned (alike.flip.imp fun _ _ same => ⟨same.1.symm, same.2.symm⟩)
  · obtain ⟨e⟩ := ‹Nonempty ε›
    intro f g reaches reaches' same c
    exact ⟨indifferent.mem_of_mem able apart there e reaches reaches' same,
      indifferent.mem_of_mem able apart there e reaches' reaches same.symm⟩
  · exact shares.indifferent able apart there

/-- The file of two classes, and a link to it that has another extension. -/
def linkedFiles : FileSystem :=
  ⟨[(["twins.cpp"], .file Pass.twinSource), (["twins.txt"], .link (Path.ofText "twins.cpp"))], []⟩

/-- An indexer for them that names files below the root. -/
def linked : Workshop Unit Store :=
  { wholes with
    indexer := ⟨.strict, 1, 1, .ofPlace []⟩
    parse := fun l source => if l = .cpp then wholes.parse l source else none }

theorem able_linked : linked.Able (Stub.embed 2) 2 :=
  ⟨rfl, fun _ _ => rfl, Stub.length_embed 2, by decide⟩

theorem canonical_linked :
    linkedFiles.canonical? (Path.ofText "twins.cpp") = .ok ["twins.cpp"] := by decide +kernel

/-- The chunks of the file are the classes by a path with the right extension, and none by another. -/
theorem chunks_linked {q : Path} (same : linkedFiles.canonical? q = .ok ["twins.cpp"]) :
    (Language.ofExtension? (q.extension?.getD "") = some .cpp →
      (Extraction.ofFile linked.parse .strict linkedFiles q "twins.cpp").chunks = classes) ∧
    (Language.ofExtension? (q.extension?.getD "") ≠ some .cpp →
      (Extraction.ofFile linked.parse .strict linkedFiles q "twins.cpp").chunks = []) := by
  have read : linkedFiles.read q = .ok Pass.twinSource := by
    have here : linkedFiles.read (Path.ofText "twins.cpp") = .ok Pass.twinSource := by
      decide +kernel
    rwa [FileSystem.read, ← FileSystem.entry?_congr canonical_linked same, ← FileSystem.read]
      at here
  unfold Extraction.ofFile
  dsimp only
  rw [read]
  constructor
  · intro supported
    have whole := extraction_wholes
    have known : Language.ofExtension? "cpp" = some .cpp := by decide +kernel
    rw [Extraction.ofSource, known] at whole
    rw [supported]
    exact congrArg Extraction.chunks whole
  · intro other
    split
    · rfl
    · rename_i l supported
      have notCpp : l ≠ .cpp := fun same => other (same ▸ supported)
      dsimp only
      unfold Extraction.ofLanguage
      simp only [linked, notCpp, if_false]
      split
      · rfl
      · split <;> rfl

/-- What is reached of the file goes by one name, whatever path leads to it. -/
theorem reaches_linked {f : SourceFile}
    (reaches : linked.Reaches linkedFiles [Path.ofText "twins.cpp"] f) :
    linkedFiles.canonical? f.path = .ok ["twins.cpp"] ∧ f.name = "twins.cpp" := by
  obtain ⟨p, listed, q, meets, found⟩ := reaches
  obtain rfl := List.mem_singleton.mp listed
  have file : linkedFiles.isFile (Path.ofText "twins.cpp") = true := by decide +kernel
  have same : linkedFiles.canonical? q = .ok ["twins.cpp"] := by
    obtain rfl | ⟨-, place, own, same⟩ := meets
    · exact canonical_linked
    · rw [same, ← own, canonical_linked]
  have named : linkedFiles.sourceName linked.indexer.anchor q = "twins.cpp" := by
    rw [FileSystem.sourceName, FileSystem.canonicalOrSelf, same]
    change ((linked.indexer.anchor.strip? (.ofPlace ["twins.cpp"])).getD
      (.ofPlace ["twins.cpp"])).slashed = "twins.cpp"
    decide +kernel
  rw [filesAt, FileSystem.isDirectory_of_isFile (meets.isFile file), if_neg Bool.false_ne_true]
    at found
  obtain rfl := List.mem_singleton.mp (first?_some found).1
  exact ⟨same, named⟩

theorem chunksOf_linked {f : SourceFile}
    (reaches : linked.Reaches linkedFiles [Path.ofText "twins.cpp"] f) :
    (Language.ofExtension? (f.path.extension?.getD "") = some .cpp →
      linked.chunksOf linkedFiles f = classes) ∧
    (Language.ofExtension? (f.path.extension?.getD "") ≠ some .cpp →
      linked.chunksOf linkedFiles f = []) := by
  obtain ⟨same, named⟩ := reaches_linked reaches
  have chunks : linked.chunksOf linkedFiles f =
      (Extraction.ofFile linked.parse .strict linkedFiles f.path "twins.cpp").chunks := by
    rw [← named]
    rfl
  rw [chunks]
  exact chunks_linked same

/-- Given by the link, the file is indexed as nothing, although it is the file of two classes. -/
theorem not_indifferent_link :
    linkedFiles.Respelled [Path.ofText "twins.cpp"] [Path.ofText "twins.txt"] ∧
    (∃ files files', linked.collect linkedFiles [Path.ofText "twins.cpp"] = .ok files ∧
      linked.collect linkedFiles [Path.ofText "twins.txt"] = .ok files' ∧
      files'.map (·.name) = files.map (·.name)) ∧
    ¬linked.Indifferent linkedFiles [Path.ofText "twins.cpp"] 2 := by
  have file : linkedFiles.isFile (Path.ofText "twins.cpp") = true := by decide +kernel
  have same : linkedFiles.canonical? (Path.ofText "twins.txt") = .ok ["twins.cpp"] := by
    decide +kernel
  have there : ∀ p ∈ [Path.ofText "twins.cpp"], linkedFiles.IsThere p :=
    List.forall_mem_singleton.mpr (.inl file)
  have apart : linked.KeepsApart linkedFiles [Path.ofText "twins.cpp"] := by
    rintro c d ⟨f, reaches, inside⟩ ⟨g, reaches', inside'⟩
    have within {f : SourceFile} {c : Chunk}
        (reaches : linked.Reaches linkedFiles [Path.ofText "twins.cpp"] f)
        (inside : c ∈ linked.chunksOf linkedFiles f) : c ∈ classes := by
      by_cases supported : Language.ofExtension? (f.path.extension?.getD "") = some .cpp
      · exact (chunksOf_linked reaches).1 supported ▸ inside
      · rw [(chunksOf_linked reaches).2 supported] at inside
        cases inside
    exact apart_classes c (within reaches inside) d (within reaches' inside')
  have reaches {q : Path} (own : linkedFiles.canonical? q = .ok ["twins.cpp"]) :
      linked.Reaches linkedFiles [Path.ofText "twins.cpp"]
        (linkedFiles.sourceFile linked.indexer.anchor q) := by
    have meets : linkedFiles.Meets (Path.ofText "twins.cpp") q :=
      .inr ⟨file, _, canonical_linked, own⟩
    refine ⟨_, List.mem_singleton_self _, q, meets, ?_⟩
    rw [filesAt, FileSystem.isDirectory_of_isFile (meets.isFile file), if_neg Bool.false_ne_true,
      first?_cons, if_pos rfl]
  obtain ⟨collects, -, exact_⟩ := indifferent_iff linked there
  have respelled : linkedFiles.Respelled [Path.ofText "twins.cpp"] [Path.ofText "twins.txt"] :=
    .spell file canonical_linked same
  obtain ⟨files, files', collected, collected', names, -⟩ := collects _ respelled
  refine ⟨respelled, ⟨files, files', collected, collected', names⟩, fun indifferent => ?_⟩
  have shares := (exact_ _ 2 able_linked apart).mp indifferent _ _ (reaches canonical_linked)
    (reaches same) ((reaches_linked (reaches canonical_linked)).2.trans
      (reaches_linked (reaches same)).2.symm)
  rw [(chunksOf_linked (reaches canonical_linked)).1 (by decide +kernel),
    (chunksOf_linked (reaches same)).2 (by decide +kernel)] at shares
  have two : classes ≠ [] := by decide +kernel
  obtain ⟨c, inside⟩ := List.exists_mem_of_ne_nil _ two
  cases (shares c).mp inside

end Workshop

end CodeSearch
