import CodeSearch.Proofs.Indexing.Schedule
import CodeSearch.Proofs.Store.Agreement

/-! # What a run reports

Any of the writes of a run may be refused, and the embedding of a file may fail midway. Whatever
the schedule, the counts and the messages of a run tell what the backend has taken, file by file.
-/

namespace CodeSearch

/-! ## Groups -/

theorem length_groupsFrom {α : Type} {n fuel : Nat} (positive : 0 < n) {xs : List α}
    (enough : xs.length ≤ fuel) : (groupsFrom n fuel xs).length = (xs.length + n - 1) / n := by
  induction fuel generalizing xs with
  | zero =>
    obtain rfl := List.eq_nil_of_length_eq_zero (Nat.le_zero.mp enough)
    exact (Nat.div_eq_of_lt (by simp; omega)).symm
  | succ fuel ih =>
    unfold groupsFrom
    split
    · rename_i none_
      obtain rfl := List.isEmpty_iff.mp none_
      exact (Nat.div_eq_of_lt (by simp; omega)).symm
    · rename_i some_
      have long : 0 < xs.length := List.length_pos_iff.mpr (by simpa using some_)
      have rest : (xs.drop n).length = xs.length - n := List.length_drop
      rw [List.length_cons, ih (by omega), rest]
      by_cases reaches : n ≤ xs.length
      · rw [← Nat.add_div_right _ positive]
        congr 1
        omega
      · have last : xs.length - n + n - 1 = n - 1 := by omega
        have all : xs.length + n - 1 = xs.length - 1 + n := by omega
        rw [last, all, Nat.add_div_right _ positive, Nat.div_eq_of_lt (by omega),
          Nat.div_eq_of_lt (by omega)]

theorem length_groups {α : Type} {n : Nat} (positive : 0 < n) (xs : List α) :
    (groups n xs).length = (xs.length + n - 1) / n :=
  length_groupsFrom positive (Nat.le_refl _)

theorem ne_nil_of_mem_groupsFrom {α : Type} {n fuel : Nat} (positive : 0 < n) {xs g : List α}
    (listed : g ∈ groupsFrom n fuel xs) : g ≠ [] := by
  induction fuel generalizing xs with
  | zero => cases listed
  | succ fuel ih =>
    unfold groupsFrom at listed
    split at listed
    · cases listed
    · rename_i some_
      rcases List.mem_cons.mp listed with rfl | later
      · have long : xs ≠ [] := by simpa using some_
        rw [Ne, List.take_eq_nil_iff, not_or]
        exact ⟨Nat.ne_of_gt positive, long⟩
      · exact ih later

theorem ne_nil_of_mem_groups {α : Type} {n : Nat} (positive : 0 < n) {xs g : List α}
    (listed : g ∈ groups n xs) : g ≠ [] :=
  ne_nil_of_mem_groupsFrom positive listed

/-! ## Counts -/

namespace Stats

/-- The report of a run of which all counts are known. -/
def counted (files chunks written failed : Nat) (warnings errors : List String) : Stats :=
  ⟨.ofNat files, .ofNat chunks, .ofNat written, .ofNat failed, 0, warnings, errors⟩

theorem counted_merge (f c w d f' c' w' d' : Nat) (ws es ws' es' : List String) :
    (counted f c w d ws es).merge (counted f' c' w' d' ws' es') =
      counted (f + f') (c + c') (w + w') (d + d') (ws ++ ws') (es ++ es') := by
  simp [counted, merge]

theorem foldl_addWarning (messages : List String) (s : Stats) :
    messages.foldl addWarning s = { s with warnings := s.warnings ++ messages } := by
  induction messages generalizing s with
  | nil => simp
  | cons message messages ih => simp [ih, addWarning]

end Stats

namespace Indexing

namespace Reply

def isTaken (a : Reply) : Bool :=
  match a.2 with
  | .ok _ => true
  | .error _ => false

/-- The message for a load that was refused. -/
def message? (source : String) (a : Reply) : Option String :=
  match a.2 with
  | .ok _ => none
  | .error e => some (writeMessage source e)

/-- The loads that were taken. -/
def taken (answers : List Reply) : List Load := (answers.filter isTaken).map Prod.fst

/-- The loads that were not. -/
def refused (answers : List Reply) : List Load :=
  (answers.filter fun a => !a.isTaken).map Prod.fst

/-- The messages for these. -/
def refusals (source : String) (answers : List Reply) : List String :=
  answers.filterMap (message? source)

variable {source : String} {answers : List Reply} {l : Load} {u : Unit} {e : StoreError}

@[simp] theorem taken_ok : taken ((l, .ok u) :: answers) = l :: taken answers := rfl

@[simp] theorem taken_error : taken ((l, .error e) :: answers) = taken answers := rfl

@[simp] theorem refusals_ok : refusals source ((l, .ok u) :: answers) = refusals source answers :=
  rfl

@[simp] theorem refusals_error :
    refusals source ((l, .error e) :: answers) = writeMessage source e :: refusals source answers :=
  rfl

theorem taken_append (as bs : List Reply) : taken (as ++ bs) = taken as ++ taken bs := by
  simp [taken]

theorem refused_append (as bs : List Reply) : refused (as ++ bs) = refused as ++ refused bs := by
  simp [refused]

/-- Each load is either taken or refused with a message. -/
theorem length_taken_add_refusals (source : String) (answers : List Reply) :
    (taken answers).length + (refusals source answers).length = answers.length := by
  induction answers with
  | nil => rfl
  | cons a answers ih =>
    obtain ⟨l, _ | _⟩ := a <;> simp only [taken_ok, taken_error, refusals_ok, refusals_error,
      List.length_cons] <;> omega

theorem perm_taken_refused (answers : List Reply) :
    (answers.map Prod.fst).Perm (taken answers ++ refused answers) := by
  rw [taken, refused, ← List.map_append]
  exact ((List.filter_append_perm _ answers).map _).symm

theorem refused_eq_nil_iff : refused answers = [] ↔ ∀ a ∈ answers, a.isTaken = true := by
  simp [refused]

theorem refusals_eq_nil_iff : refusals source answers = [] ↔ refused answers = [] := by
  have split := length_taken_add_refusals source answers
  have parts := (perm_taken_refused answers).length_eq
  rw [List.length_map, List.length_append] at parts
  rw [← List.length_eq_zero_iff, ← List.length_eq_zero_iff]
  omega

theorem countResult_ok (f c w d : Nat) (ws es : List String) :
    countResult source (Stats.counted f c w d ws es) (.ok u) =
      Stats.counted f c (w + 1) d ws es := by
  simp [countResult, Stats.counted]

theorem countResult_error (f c w d : Nat) (ws es : List String) :
    countResult source (Stats.counted f c w d ws es) (.error e) =
      Stats.counted f c w (d + 1) ws (es ++ [writeMessage source e]) := by
  simp [countResult, Stats.addError, Stats.counted]

theorem foldl_countResult (answers : List Reply) (f c w d : Nat) (ws es : List String) :
    answers.foldl (fun stats a => countResult source stats a.2) (Stats.counted f c w d ws es) =
      Stats.counted f c (w + (taken answers).length) (d + (refusals source answers).length) ws
        (es ++ refusals source answers) := by
  induction answers generalizing w d es with
  | nil => simp [taken, refusals]
  | cons a answers ih =>
    obtain ⟨l, e | u⟩ := a
    · rw [List.foldl_cons, countResult_error, ih]
      simp [Nat.add_assoc, Nat.add_comm 1]
    · rw [List.foldl_cons, countResult_ok, ih]
      simp [Nat.add_assoc, Nat.add_comm 1]

end Reply

end Indexing

/-- There is one vector for each text. -/
def Embedder.Aligned {ε : Type} (m : Embedder ε) : Prop :=
  ∀ texts s vectors s', m.embed texts s = (.ok vectors, s') → vectors.length = texts.length

namespace Indexing

/-! ## What a task has done -/

variable {ε σ : Type} {m : Embedder ε} {n : Nat} {w w' : Bench ε σ}

/-- The vectors of a load are what the embedder gave for its texts. -/
def Load.Made (m : Embedder ε) (l : Load) : Prop :=
  ∃ e e', m.embed (l.group.map (·.content)) e = (.ok l.vectors, e')

/-- The embedder fails on a group. -/
def Refuses (m : Embedder ε) (g : List Chunk) (x : StoreError) : Prop :=
  ∃ e e', m.embed (g.map (·.content)) e = (.error x, e')

namespace Task

/-- The answers that came to a task. -/
def answers (t : Task) : List Reply := t.landed ++ t.joined

/-- The loads that a task has made, in order, and the groups after them. -/
structure Made (m : Embedder ε) (n : Nat) (t : Task) (loads : List Load)
    (ahead : List (List Chunk)) : Prop where
  parts : loads.map Load.group ++ ahead = groups n t.source.chunks
  made : ∀ l ∈ loads, l.Made m
  held : (t.flying ++ t.answers.map Prod.fst).Perm loads
  goes : (t.failure = none ∧ t.waiting = ahead) ∨
    ∃ g gs x, ahead = g :: gs ∧ Refuses m g x ∧ t.failure = some x ∧ t.waiting = []

theorem made_start (m : Embedder ε) (n : Nat) (x : Source) :
    (start n x).Made m n [] (groups n x.chunks) :=
  ⟨rfl, nofun, .refl _, .inl ⟨rfl, rfl⟩⟩

variable {b : Backend σ} {t t' : Task} {loads : List Load} {ahead : List (List Chunk)}

/-- A task that counts an answer has the answers it had. -/
theorem perm_join {a : Reply} {landed rest joined : List Reply}
    (picked : landed.Perm (a :: rest)) : (rest ++ (joined ++ [a])).Perm (landed ++ joined) :=
  calc rest ++ (joined ++ [a])
    _ = rest ++ joined ++ [a] := (List.append_assoc ..).symm
    List.Perm _ (a :: (rest ++ joined)) := List.perm_append_singleton ..
    List.Perm _ (landed ++ joined) := (picked.append_right joined).symm

/-- A step leaves the answers, or it adds one that the backend gave. -/
theorem Step.answers_cases (step : Step m b (t, w) (t', w')) :
    (w'.log = w.log ∧ w'.backend = w.backend ∧ t'.answers.Perm t.answers) ∨
      ∃ l ∈ t.flying, ∃ r, w'.log = w.log ++ [(l, r)] ∧
        b.add l.batch w.backend = (r, w'.backend) ∧ t'.answers.Perm ((l, r) :: t.answers) := by
  cases step with
  | embed | stop => exact .inl ⟨rfl, rfl, .refl _⟩
  | @write _ _ l rest r s picked answered =>
    refine .inr ⟨l, picked.mem_iff.mpr List.mem_cons_self, r, rfl, answered, ?_⟩
    rw [answers, List.append_assoc]
    exact List.perm_middle
  | join picked => exact .inl ⟨rfl, rfl, perm_join picked⟩

theorem Made.step (made : t.Made m n loads ahead) (step : Step m b (t, w) (t', w')) :
    ∃ loads' ahead', t'.Made m n loads' ahead' := by
  obtain ⟨parts, made, held, goes⟩ := made
  cases step with
  | @embed _ _ g gs vectors e next embedded =>
    rcases goes with ⟨whole, rfl⟩ | ⟨_, _, _, _, _, _, ended⟩
    · refine ⟨loads ++ [⟨g, vectors⟩], gs, ?_, ?_, ?_, .inl ⟨whole, rfl⟩⟩
      · rw [next] at parts
        simpa using parts
      · intro l listed
        rcases List.mem_append.mp listed with before | new
        · exact made l before
        · obtain rfl := List.mem_singleton.mp new
          exact ⟨_, _, embedded⟩
      · rw [List.append_assoc]
        refine .trans ?_ (held.append_right [⟨g, vectors⟩])
        rw [List.append_assoc]
        exact List.perm_append_comm.append_left _
    · exact absurd (ended.symm.trans next) nofun
  | @stop _ _ g gs x e next refused =>
    rcases goes with ⟨-, rfl⟩ | ⟨_, _, _, _, _, _, ended⟩
    · exact ⟨loads, t.waiting, parts, made, held,
        .inr ⟨g, gs, x, next, ⟨_, _, refused⟩, rfl, rfl⟩⟩
    · exact absurd (ended.symm.trans next) nofun
  | @write _ _ l rest r s picked answered =>
    refine ⟨loads, ahead, parts, made, .trans ?_ held, goes⟩
    calc rest ++ ((t.landed ++ [(l, r)]) ++ t.joined).map Prod.fst
      _ = rest ++ (t.landed.map Prod.fst ++ l :: t.joined.map Prod.fst) := by simp
      List.Perm _ (rest ++ l :: t.answers.map Prod.fst) := by
        rw [answers, List.map_append]
        exact List.perm_middle.append_left rest
      List.Perm _ (l :: rest ++ t.answers.map Prod.fst) := List.perm_middle
      List.Perm _ (t.flying ++ t.answers.map Prod.fst) := (picked.append_right _).symm
  | join picked =>
    exact ⟨loads, ahead, parts, made,
      .trans (((perm_join picked).map Prod.fst).append_left _) held, goes⟩

end Task

end Indexing

/-- A backend keeps records. It takes in the entries of a batch, or refuses the batch without
effect. -/
structure Backend.Keeps {σ : Type} (b : Backend σ) (view : σ → Table Record) : Prop where
  taken : ∀ es s s', b.add (.ofEntries es) s = (.ok (), s') → view s' = (view s).insertAll es
  refused : ∀ batch s e s', b.add batch s = (.error e, s') → view s' = view s

theorem storeBackend_keeps : storeBackend.Keeps Store.records where
  taken es s t added := by
    rcases Store.tryAdd_cases (.ofEntries es) s with ⟨u, ok, done⟩ | ⟨e, -, failed⟩
    · obtain rfl := (Prod.mk.inj (done.symm.trans added)).2
      obtain ⟨-, -, h, held, rfl⟩ := Store.add_cases ok
      rw [Batch.entries_ofEntries, Store.records, Store.records, held]
      rfl
    · cases (Prod.mk.inj (failed.symm.trans added)).1
  refused batch s e t added := by
    rcases Store.tryAdd_cases batch s with ⟨u, -, done⟩ | ⟨e', -, failed⟩
    · cases (Prod.mk.inj (done.symm.trans added)).1
    · rw [(Prod.mk.inj (failed.symm.trans added)).2]

/-- A store that refuses some of the next batches, as a list foretells. -/
def faultyBackend : Backend (Store × List (Option StoreError)) where
  ready s := storeBackend.ready s.1
  add batch s :=
    match s.2.head? with
    | some (some e) => (.error e, s.1, s.2.tail)
    | _ => ((s.1.tryAdd batch).1, (s.1.tryAdd batch).2, s.2.tail)
  flush s fs :=
    let (r, t, after) := storeBackend.flush s.1 fs
    (r, (t, s.2), after)
  query v k kind s := storeBackend.query v k kind s.1

theorem faultyBackend_keeps : faultyBackend.Keeps fun s => s.1.records where
  taken es s t added := by
    simp only [faultyBackend] at added
    split at added
    · cases (Prod.mk.inj added).1
    · obtain ⟨ok, rfl⟩ := Prod.mk.inj added
      exact storeBackend_keeps.taken es s.1 _ (Prod.ext ok rfl)
  refused batch s e t added := by
    simp only [faultyBackend] at added
    split at added
    · rw [← (Prod.mk.inj added).2]
    · obtain ⟨failed, rfl⟩ := Prod.mk.inj added
      exact storeBackend_keeps.refused batch s.1 e _ (Prod.ext failed rfl)

namespace Indexing

namespace Crew

variable {ε σ : Type} {m : Embedder ε} {b : Backend σ} {view : σ → Table Record} {n : Nat}
variable {xs : List Source} {old : Table Record} {c c' : Crew ε σ} {w : Bench ε σ}

/-- A step leaves the tasks, or one of them takes a step. -/
theorem Step.tasks_cases (step : Step m b c c') :
    (c'.bench = c.bench ∧ c'.tasks.Perm c.tasks) ∨ ∃ t t' others,
      Task.Step m b (t, c.bench) (t', c'.bench) ∧ c.tasks.Perm (t :: others) ∧
        c'.tasks.Perm (t' :: others) := by
  cases step with
  | @work t t' rest w picked step =>
    exact .inr ⟨t, t', rest ++ c.finished, step, picked.append_right _, .refl _⟩
  | @finish t rest picked ended =>
    refine .inl ⟨rfl, ?_⟩
    calc rest ++ (c.finished ++ [t])
      _ = rest ++ c.finished ++ [t] := (List.append_assoc ..).symm
      List.Perm _ (t :: (rest ++ c.finished)) := List.perm_append_singleton ..
      List.Perm _ c.tasks := (picked.append_right _).symm

/-- The tasks stay those of the same sources. -/
theorem Step.perm_sources (step : Step m b c c') :
    (c'.tasks.map Task.source).Perm (c.tasks.map Task.source) := by
  rcases step.tasks_cases with ⟨-, same⟩ | ⟨t, t', others, step, before, after⟩
  · exact same.map _
  · refine (after.map _).trans (.trans ?_ (before.map _).symm)
    rw [List.map_cons, List.map_cons, step.source_eq]

theorem perm_sources (run : Run m b c c') :
    (c'.tasks.map Task.source).Perm (c.tasks.map Task.source) := by
  induction run with
  | refl => exact .refl _
  | tail _ step ih => exact step.perm_sources.trans ih

/-- What each step of a task keeps holds of all tasks in the end. -/
theorem forall_tasks {holds : Task → Prop}
    (keeps : ∀ t w t' w', holds t → Task.Step m b (t, w) (t', w') → holds t')
    (run : Run m b c c') (start : ∀ t ∈ c.tasks, holds t) : ∀ t ∈ c'.tasks, holds t := by
  induction run with
  | refl => exact start
  | tail _ step ih =>
    rcases step.tasks_cases with ⟨-, same⟩ | ⟨t, t', others, step, before, after⟩
    · exact fun t listed => ih t (same.mem_iff.mp listed)
    · intro t₁ listed
      rcases List.mem_cons.mp (after.mem_iff.mp listed) with rfl | other
      · exact keeps _ _ _ _ (ih t (before.mem_iff.mpr List.mem_cons_self)) step
      · exact ih t₁ (before.mem_iff.mpr (List.mem_cons_of_mem _ other))

/-- The tasks are for certain sources, and the backend has what it took on top of what it had. -/
structure Kept (view : σ → Table Record) (old : Table Record) (xs : List Source)
    (c : Crew ε σ) : Prop where
  sources : (c.tasks.map Task.source).Perm xs
  ended : ∀ t ∈ c.finished, t.Over
  log : c.bench.log.Perm (c.tasks.flatMap Task.answers)
  view : view c.bench.backend = old.insertAll ((Reply.taken c.bench.log).flatMap Load.entries)

theorem kept_start (view : σ → Table Record) (n : Nat) (xs : List Source) (e : ε) (s : σ) :
    Kept view (view s) xs (start n xs ⟨e, s, []⟩) := by
  refine ⟨?_, nofun, ?_, rfl⟩
  · rw [tasks, start, List.append_nil, List.map_map]
    exact .of_eq (List.map_id _)
  · have none_ : (xs.map (Task.start n)).flatMap Task.answers = [] := by
      rw [List.flatMap_map]
      exact List.flatMap_eq_nil_iff.mpr fun _ _ => rfl
    rw [tasks, start, List.append_nil, none_]

theorem Kept.step (keeps : b.Keeps view) (kept : Kept view old xs c) (step : Step m b c c') :
    Kept view old xs c' := by
  have ended : ∀ t ∈ c'.finished, t.Over := by
    cases step with
    | work => exact kept.ended
    | @finish t _ _ ended =>
      intro t' listed
      rcases List.mem_append.mp listed with before | new
      · exact kept.ended t' before
      · exact List.mem_singleton.mp new ▸ ended
  have sources := step.perm_sources.trans kept.sources
  rcases step.tasks_cases with ⟨bench, same⟩ | ⟨t, t', others, step, before, after⟩
  · refine ⟨sources, ended, ?_, ?_⟩
    · rw [bench]
      exact kept.log.trans (same.symm.flatMap_right _)
    · rw [bench]
      exact kept.view
  · have answers := kept.log.trans (before.flatMap_right Task.answers)
    refine ⟨sources, ended, .trans ?_ (after.flatMap_right _).symm, ?_⟩
    · rw [List.flatMap_cons] at answers ⊢
      rcases step.answers_cases with ⟨log, -, came⟩ | ⟨l, -, r, log, -, came⟩
      · rw [log]
        exact answers.trans (came.symm.append_right _)
      · rw [log]
        exact (List.perm_append_singleton ..).trans
          ((answers.cons _).trans (came.symm.append_right _))
    · rcases step.answers_cases with ⟨log, same, -⟩ | ⟨l, -, e | u, log, answered, -⟩
      · rw [log, same, kept.view]
      · have none_ : Reply.taken [(l, .error e)] = [] := rfl
        rw [log, keeps.refused _ _ _ _ answered, kept.view, Reply.taken_append, none_,
          List.append_nil]
      · have one : Reply.taken [(l, .ok u)] = [l] := rfl
        rw [log, keeps.taken _ _ _ answered, kept.view, Reply.taken_append, one,
          List.flatMap_append, List.flatMap_singleton, Table.insertAll_append]

theorem Kept.run (keeps : b.Keeps view) (kept : Kept view old xs c) (run : Run m b c c') :
    Kept view old xs c' := by
  induction run with
  | refl => exact kept
  | tail _ step ih => exact ih.step keeps step

/-- The tasks of a crew have embedded their groups in order, whatever came in between. -/
theorem exists_made (run : Run m b (start n xs w) c) :
    ∀ t ∈ c.tasks, ∃ loads ahead, t.Made m n loads ahead := by
  have keeps : ∀ t w t' w', (∃ loads ahead, Task.Made m n t loads ahead) →
      Task.Step m b (t, w) (t', w') → ∃ loads ahead, Task.Made m n t' loads ahead := by
    rintro t w t' w' ⟨loads, ahead, made⟩ step
    exact made.step step
  refine forall_tasks keeps run fun t listed => ?_
  rw [tasks, start, List.append_nil] at listed
  obtain ⟨x, -, rfl⟩ := List.mem_map.mp listed
  exact ⟨_, _, Task.made_start m n x⟩

end Crew

namespace Task

variable {ε : Type} {m : Embedder ε} {n : Nat} {t : Task}

/-- The messages for a source that is over. -/
def messages (t : Task) : List String :=
  (t.failure.map (embeddingMessage t.source.name)).toList ++
    Reply.refusals t.source.name t.joined

theorem noted_eq (x : Source) :
    x.noted = Stats.counted 0 0 0 0 (x.extraction.warnings.map Warning.message) [] := by
  have folded := Stats.foldl_addWarning (x.extraction.warnings.map Warning.message) .empty
  rw [List.foldl_map] at folded
  exact folded

theorem stats_eq (t : Task) : t.stats =
    Stats.counted 0 t.source.chunks.length (Reply.taken t.joined).length
      (Reply.refusals t.source.name t.joined).length
      (t.source.extraction.warnings.map Warning.message) t.messages := by
  have embedded : countEmbedded t.source.name t.source.chunks.length t.failure =
      Stats.counted 0 t.source.chunks.length 0 0 []
        (t.failure.map (embeddingMessage t.source.name)).toList := by
    cases failure : t.failure <;> rfl
  rw [stats, embedded, Reply.foldl_countResult, noted_eq, Stats.counted_merge]
  simp [messages]

/-- What a source came to that is over. Its first groups were attempted, up to the one that could
not be embedded, or all of them. Each attempt was taken or refused, and each refusal and a failure
to embed has its message. -/
structure Accounted (m : Embedder ε) (n : Nat) (t : Task) : Prop where
  attempts : ∃ loads : List Load, (t.joined.map Prod.fst).Perm loads ∧
    (∀ l ∈ loads, l.Made m ∧ l.vectors.length = l.group.length) ∧
      ((t.failure = none ∧ loads.map Load.group = groups n t.source.chunks) ∨
        ∃ g gs x, t.failure = some x ∧ Refuses m g x ∧
          loads.map Load.group ++ g :: gs = groups n t.source.chunks)
  whole : t.failure = none → t.joined.length = (t.source.chunks.length + n - 1) / n
  split : (Reply.taken t.joined).length + (Reply.refusals t.source.name t.joined).length =
    t.joined.length
  stats : t.stats =
    Stats.counted 0 t.source.chunks.length (Reply.taken t.joined).length
      (Reply.refusals t.source.name t.joined).length
      (t.source.extraction.warnings.map Warning.message) t.messages
  clean : t.stats.isClean = true ↔
    ((Reply.taken t.joined).flatMap Load.group).Perm t.source.chunks

theorem isClean_iff (t : Task) :
    t.stats.isClean = true ↔ t.failure = none ∧ Reply.refused t.joined = [] := by
  have silent : Reply.refused t.joined = [] ↔ Reply.refusals t.source.name t.joined = [] :=
    Reply.refusals_eq_nil_iff.symm
  rw [stats_eq, Stats.isClean, Stats.counted, silent]
  simp only [Bool.and_eq_true, List.isEmpty_iff, messages, List.append_eq_nil_iff,
    Option.toList_eq_nil_iff, Option.map_eq_none_iff, decide_eq_true_eq]
  constructor
  · rintro ⟨-, whole, none_⟩
    exact ⟨whole, none_⟩
  · rintro ⟨whole, none_⟩
    exact ⟨by rw [none_]; rfl, whole, none_⟩

namespace Made

variable {loads : List Load} {ahead : List (List Chunk)}

/-- All loads of a source that is over were answered. -/
theorem answered (made : t.Made m n loads ahead) (ended : t.Over) :
    (t.joined.map Prod.fst).Perm loads := by
  have held := made.held
  rwa [answers, ended.flying, ended.landed, List.nil_append, List.nil_append] at held

/-- Its groups that are left come behind one that could not be embedded. -/
theorem ahead_cases (made : t.Made m n loads ahead) (ended : t.Over) :
    (t.failure = none ∧ ahead = []) ∨
      ∃ g gs x, t.failure = some x ∧ Refuses m g x ∧ ahead = g :: gs := by
  rcases made.goes with ⟨whole, left⟩ | ⟨g, gs, x, left, refused, failure, -⟩
  · exact .inl ⟨whole, left.symm.trans ended.waiting⟩
  · exact .inr ⟨g, gs, x, failure, refused, left⟩

/-- The chunks of a source that is over: those taken, those refused, and those never embedded. -/
theorem perm_chunks (positive : 0 < n) (made : t.Made m n loads ahead) (ended : t.Over) :
    t.source.chunks.Perm ((Reply.taken t.joined).flatMap Load.group ++
      ((Reply.refused t.joined).flatMap Load.group ++ ahead.flatten)) :=
  calc t.source.chunks
    _ = (groups n t.source.chunks).flatten := (flatten_groups positive _).symm
    _ = loads.flatMap Load.group ++ ahead.flatten := by
      rw [← made.parts, List.flatten_append, List.flatMap_def]
    List.Perm _ ((Reply.taken t.joined ++ Reply.refused t.joined).flatMap Load.group ++
        ahead.flatten) :=
      (((made.answered ended).symm.trans
        (Reply.perm_taken_refused t.joined)).flatMap_right _).append_right _
    _ = _ := by rw [List.flatMap_append, List.append_assoc]

/-- No group is empty, so a source is clean if none of its chunks was refused or left. -/
theorem isClean_iff_nil (positive : 0 < n) (made : t.Made m n loads ahead) (ended : t.Over) :
    t.stats.isClean = true ↔
      (Reply.refused t.joined).flatMap Load.group ++ ahead.flatten = [] := by
  have full : ∀ g ∈ groups n t.source.chunks, g ≠ [] := fun g => ne_nil_of_mem_groups positive
  rw [← made.parts] at full
  rw [isClean_iff, List.append_eq_nil_iff, List.flatMap_eq_nil_iff, List.flatten_eq_nil_iff,
    and_comm]
  apply and_congr
  · constructor
    · intro none_
      exact none_ ▸ nofun
    · intro empty
      refine List.eq_nil_iff_forall_not_mem.mpr fun l listed => ?_
      have among : l ∈ loads := (made.answered ended).mem_iff.mp
        ((Reply.perm_taken_refused t.joined).mem_iff.mpr (List.mem_append_right _ listed))
      exact full _ (List.mem_append_left _ (List.mem_map_of_mem among)) (empty l listed)
  · rcases made.ahead_cases ended with ⟨whole, rfl⟩ | ⟨g, gs, x, failure, -, rfl⟩
    · exact ⟨fun _ => nofun, fun _ => whole⟩
    · constructor
      · intro whole
        cases whole.symm.trans failure
      · intro empty
        exact absurd (empty g List.mem_cons_self)
          (full g (List.mem_append_right _ List.mem_cons_self))

theorem isClean_iff_perm (positive : 0 < n) (made : t.Made m n loads ahead) (ended : t.Over) :
    t.stats.isClean = true ↔
      ((Reply.taken t.joined).flatMap Load.group).Perm t.source.chunks := by
  have parts := made.perm_chunks positive ended
  rw [made.isClean_iff_nil positive ended]
  constructor
  · intro none_
    rw [none_, List.append_nil] at parts
    exact parts.symm
  · intro all
    have lengths := (all.trans parts).length_eq
    rw [List.length_append] at lengths
    exact List.eq_nil_of_length_eq_zero (by omega)

theorem accounted (positive : 0 < n) (aligned : m.Aligned) (made : t.Made m n loads ahead)
    (ended : t.Over) : t.Accounted m n := by
  have answered := made.answered ended
  have parts := made.parts
  refine ⟨⟨loads, answered, fun l listed => ?_, ?_⟩, fun whole => ?_,
    Reply.length_taken_add_refusals _ _, stats_eq t, made.isClean_iff_perm positive ended⟩
  · obtain ⟨e, e', embedded⟩ := made.made l listed
    exact ⟨⟨e, e', embedded⟩, by rw [aligned _ _ _ _ embedded, List.length_map]⟩
  · rcases made.ahead_cases ended with ⟨whole, rfl⟩ | ⟨g, gs, x, failure, refused, rfl⟩
    · rw [List.append_nil] at parts
      exact .inl ⟨whole, parts⟩
    · exact .inr ⟨g, gs, x, failure, refused, parts⟩
  · rcases made.ahead_cases ended with ⟨-, rfl⟩ | ⟨g, gs, x, failure, -, -⟩
    · rw [← length_groups positive, ← parts, List.append_nil, List.length_map,
        ← answered.length_eq, List.length_map]
    · cases whole.symm.trans failure

end Made

/-- The warnings about a source. -/
def warnings (t : Task) : List String := t.source.extraction.warnings.map Warning.message

theorem countFile_counted (f c w d : Nat) (ws es : List String) (t : Task) :
    Workshop.countFile (Stats.counted f c w d ws es) t.stats =
      Stats.counted (f + 1) (c + t.source.chunks.length) (w + (Reply.taken t.joined).length)
        (d + (Reply.refusals t.source.name t.joined).length) (ws ++ t.warnings)
        (es ++ t.messages) := by
  have files : { Stats.counted f c w d ws es with
      files := (Stats.counted f c w d ws es).files + 1 } =
      Stats.counted (f + 1) c w d ws es := by
    simp [Stats.counted]
  rw [Workshop.countFile, files, stats_eq, Stats.counted_merge]
  rfl

theorem tally_eq (ts : List Task) : tally ts =
    Stats.counted ts.length (ts.map fun t => t.source.chunks.length).sum
      (ts.map fun t => (Reply.taken t.joined).length).sum
      (ts.map fun t => (Reply.refusals t.source.name t.joined).length).sum
      (ts.flatMap warnings) (ts.flatMap messages) := by
  have folded : ∀ f c w d ws es,
      ts.foldl (fun total t => Workshop.countFile total t.stats) (Stats.counted f c w d ws es) =
        Stats.counted (f + ts.length) (c + (ts.map fun t => t.source.chunks.length).sum)
          (w + (ts.map fun t => (Reply.taken t.joined).length).sum)
          (d + (ts.map fun t => (Reply.refusals t.source.name t.joined).length).sum)
          (ws ++ ts.flatMap warnings) (es ++ ts.flatMap messages) := by
    induction ts with
    | nil => simp
    | cons t ts ih =>
      intro f c w d ws es
      rw [List.foldl_cons, countFile_counted, ih]
      simp [Nat.add_assoc, Nat.add_comm 1]
  have all := folded 0 0 0 0 [] []
  simp only [Nat.zero_add, List.nil_append] at all
  exact all

end Task

namespace Crew

/-- What a run came to. Each source is accounted for, whatever became of the others. The backend has
the entries of the loads that it took, in the order in which it took them, on top of what it had,
and the report is the sum of what the sources came to. -/
structure Settled {ε σ : Type} (m : Embedder ε) (n : Nat) (view : σ → Table Record)
    (old : Table Record) (xs : List Source) (c : Crew ε σ) : Prop where
  sources : (c.finished.map Task.source).Perm xs
  accounted : ∀ t ∈ c.finished, t.Accounted m n
  log : c.bench.log.Perm (c.finished.flatMap Task.joined)
  view : view c.bench.backend = old.insertAll ((Reply.taken c.bench.log).flatMap Load.entries)
  total : c.total =
    Stats.counted xs.length (xs.map fun x => x.chunks.length).sum
      (c.finished.map fun t => (Reply.taken t.joined).length).sum
      (c.finished.map fun t => (Reply.refusals t.source.name t.joined).length).sum
      (c.finished.flatMap Task.warnings) (c.finished.flatMap Task.messages)

variable {ε σ : Type} {m : Embedder ε} {b : Backend σ} {view : σ → Table Record} {n : Nat}
variable {xs : List Source} {e : ε} {s : σ} {c : Crew ε σ}

theorem settled_of_run (positive : 0 < n) (aligned : m.Aligned) (keeps : b.Keeps view)
    (run : Run m b (start n xs ⟨e, s, []⟩) c) (ended : c.working = []) :
    c.Settled m n view (view s) xs := by
  have kept := (kept_start view n xs e s).run keeps run
  have all : c.tasks = c.finished := by rw [tasks, ended, List.nil_append]
  have sources := kept.sources
  have log := kept.log
  rw [all] at sources log
  refine ⟨sources, fun t listed => ?_, ?_, kept.view, ?_⟩
  · obtain ⟨loads, ahead, made⟩ := exists_made run t (all ▸ listed)
    exact made.accounted positive aligned (kept.ended t listed)
  · refine log.trans (.of_eq ?_)
    rw [List.flatMap_def, List.flatMap_def]
    refine congrArg List.flatten (List.map_congr_left fun t listed => ?_)
    rw [Task.answers, (kept.ended t listed).landed, List.nil_append]
  · have chunks := (sources.map fun x => x.chunks.length).sum_nat
    have length := sources.length_eq
    rw [List.length_map] at length
    rw [List.map_map] at chunks
    rw [total, Task.tally_eq, length, ← chunks]
    rfl

/-- A run of any schedule can be carried to its end, and at the end it is settled. -/
theorem accounts_of_run (positive : 0 < n) (aligned : m.Aligned) (keeps : b.Keeps view)
    (run : Run m b (start n xs ⟨e, s, []⟩) c) :
    (∃ c', Run m b c c' ∧ c'.working = []) ∧
      (c.working = [] → c.Settled m n view (view s) xs) := by
  constructor
  · exact c.exists_end m b
  · exact settled_of_run positive aligned keeps run

end Crew

namespace Faults

/-- An embedder that fails on one text. -/
def embedder : Embedder Unit where
  embed texts s :=
    (if "bad" ∈ texts then .error (.embedding "bad") else .ok (texts.map fun _ => []), s)

def chunk (line : Nat) (content : String) : Chunk :=
  { source := "a.c", startLine := line, endLine := line, kind := .function, names := .empty,
    content := content, distance := none }

/-- Two files. The third text of the first cannot be embedded. -/
def sources : List Source :=
  [⟨"a.c", ⟨[chunk 1 "x", chunk 2 "y", chunk 3 "bad", chunk 4 "z"], []⟩⟩,
    ⟨"b.c", ⟨[chunk 1 "x"], []⟩⟩]

/-- A store that refuses the second batch. -/
def store : Store × List (Option StoreError) :=
  (⟨none, 0, .l2, some ⟨.empty, .empty 0 .l2, .empty⟩⟩, [none, some (.files "disk full")])

def workshop : Workshop Unit (Store × List (Option StoreError)) where
  indexer := ⟨.standard, 1, 1, ⟨[""]⟩⟩
  parse _ _ := none
  embedder := embedder
  backend := faultyBackend

theorem aligned : embedder.Aligned := by
  intro texts s vectors s' embedded
  simp only [embedder] at embedded
  split at embedded
  · cases (Prod.mk.inj embedded).1
  · rw [← Except.ok.inj (Prod.mk.inj embedded).1, List.length_map]

end Faults

/-- The first file has one batch written and one refused and stops at its third text, and the second
file is written all the same. -/
theorem Crew.accounts_faults : ∃ c, Run Faults.embedder faultyBackend
    (start 1 Faults.sources ⟨(), Faults.store, []⟩) c ∧ c.working = [] ∧
      c.total = Stats.counted 2 5 2 1 []
        ["a.c: embedding failed: Embedding error: bad",
          "a.c: batch write failed: IO error: disk full"] ∧
        (∀ t ∈ c.finished, t.Accounted Faults.embedder 1) ∧
          c.bench.backend.1.records =
            Table.empty.insertAll ((Reply.taken c.bench.log).flatMap Load.entries) := by
  obtain ⟨c, run, ended, total⟩ := Workshop.exists_run_writeAll (k := Faults.workshop)
    (w := ⟨(), Faults.store, ⟨[], []⟩⟩) Faults.sources [] []
  obtain ⟨-, ends⟩ := accounts_of_run (by decide) Faults.aligned faultyBackend_keeps run
  have settled := ends ended
  refine ⟨c, run, ended, ?_, settled.accounted, settled.view⟩
  have reported : (Faults.workshop.writeAll Faults.sources
      (Task.tally [], ⟨(), Faults.store, ⟨[], []⟩⟩)).1 = c.total := congrArg Prod.fst total
  rw [← reported]
  decide +kernel

end Indexing

end CodeSearch
