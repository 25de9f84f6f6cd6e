import Mathlib.Data.List.TakeWhile
import CodeSearch.Settings

/-! # Settings from the environment

Each variable of the environment has a place in the settings that no other one sets. What a blank
variable or one that cannot be read leaves in its place is what was there. So variables may be
applied one by one, in any order and again, and how many files are indexed at once comes out as if
its variable were read by itself.
-/

namespace CodeSearch

/-! ## What variables say -/

namespace Concurrency

variable {text : String} {n : Nat}

/-- A text between whose blanks is the numeral of a number that a word can hold, perhaps with a plus
sign. -/
def Spells (text : String) (n : Nat) : Prop :=
  ∃ ds, ((Text.trim text).toList = ds ∨ (Text.trim text).toList = '+' :: ds) ∧ ds ≠ [] ∧
    (∀ c ∈ ds, c.isDigit = true) ∧ Decimal.ofDigits ds = n ∧ n < wordSize

theorem bounded?_eq_some_iff {bound : Nat} {ds : List Char} :
    Decimal.bounded? bound ds = some n ↔
      ds ≠ [] ∧ (∀ c ∈ ds, c.isDigit = true) ∧ Decimal.ofDigits ds = n ∧ n < bound := by
  unfold Decimal.bounded?
  split
  · rename_i bad
    simp only [reduceCtorEq, false_iff]
    rintro ⟨filled, digits, -⟩
    simp [filled] at bad
    obtain ⟨c, listed, other⟩ := bad
    simp [digits c listed] at other
  · rename_i good
    simp only [Bool.or_eq_true, List.isEmpty_iff, Bool.not_eq_true', not_or,
      Bool.not_eq_false, List.all_eq_true] at good
    split
    · rename_i small
      simp only [Option.some.injEq]
      constructor
      · rintro rfl
        exact ⟨good.1, good.2, rfl, small⟩
      · exact fun spelled => spelled.2.2.1
    · rename_i large
      simp only [reduceCtorEq, false_iff]
      rintro ⟨-, -, rfl, small⟩
      exact large small

theorem dropPlus_of_ne {c : Char} (other : c ≠ '+') (cs : List Char) :
    Decimal.dropPlus (c :: cs) = c :: cs := by
  rw [Decimal.dropPlus]
  intro rest same
  exact other (List.cons.inj same).1

theorem read?_eq_some_iff : read? text = some n ↔ Spells text n := by
  rw [read?, Decimal.natural?, bounded?_eq_some_iff]
  constructor
  · intro spelled
    refine ⟨_, ?_, spelled⟩
    cases chars : (Text.trim text).toList with
    | nil => exact .inl rfl
    | cons c cs =>
      by_cases plus : c = '+'
      · subst plus
        exact .inr rfl
      · exact .inl (dropPlus_of_ne plus cs).symm
  · rintro ⟨ds, bare | signed, filled, digits, spelled⟩
    · have kept : Decimal.dropPlus (Text.trim text).toList = ds := by
        obtain ⟨c, cs, rfl⟩ := List.exists_cons_of_ne_nil filled
        have digit := digits c List.mem_cons_self
        rw [bare]
        refine dropPlus_of_ne ?_ cs
        rintro rfl
        exact absurd digit (by decide)
      rw [kept]
      exact ⟨filled, digits, spelled⟩
    · rw [signed]
      exact ⟨filled, digits, spelled⟩

/-- What is blank spells no number. -/
theorem read?_of_blank (blank : Text.isBlankText text = true) : read? text = none := by
  have trimmed : (Text.trim text).toList = [] := by
    have none : text.toList.dropWhile isBlank = [] :=
      List.dropWhile_eq_nil_iff.mpr (List.all_eq_true.mp blank)
    rw [Text.trim, Text.trimStart, none]
    rfl
  rw [read?, Decimal.natural?, trimmed]
  rfl

end Concurrency

theorem EmbeddingMode.parse?_eq_some_iff {text : String} {m : EmbeddingMode} :
    parse? text = some m ↔ Text.lower (Text.trim text) = m.name := by
  rw [parse?, ofName?]
  generalize Text.lower (Text.trim text) = word
  by_cases stub_ : word = "stub"
  · subst stub_
    cases m <;> decide
  · by_cases ollama_ : word = "ollama"
    · subst ollama_
      cases m <;> decide
    · cases m <;> simp [all, name, Ne.symm stub_, Ne.symm ollama_, stub_, ollama_]

namespace Settings

/-- A variable that sets something. -/
inductive Variable where
  | storePath
  | projectRoot
  | mode
  | model
  | url
  | concurrency
  deriving DecidableEq

namespace Variable

def name : Variable → String
  | storePath => "CODECHAT_STORE_PATH"
  | projectRoot => "CODECHAT_PROJECT_ROOT"
  | mode => "CODECHAT_EMBEDDING_MODE"
  | model => "CODECHAT_EMBEDDING_MODEL"
  | url => "CODECHAT_OLLAMA_URL"
  | concurrency => "CODECHAT_INDEX_CONCURRENCY"

/-- What the place of a variable holds. -/
abbrev Target : Variable → Type
  | storePath => Path
  | projectRoot => Option Path
  | mode => EmbeddingMode
  | model => String
  | url => String
  | concurrency => Option Nat

/-- What is in the place of a variable. -/
def get : (v : Variable) → Settings → v.Target
  | storePath, s => s.storePath
  | projectRoot, s => s.projectRoot
  | mode, s => s.embedding.mode
  | model, s => s.embedding.model
  | url, s => s.embedding.baseUrl
  | concurrency, s => s.indexing.concurrency

/-- Put something in the place of a variable. -/
def set : (v : Variable) → v.Target → Settings → Settings
  | storePath, x, s => { s with storePath := x }
  | projectRoot, x, s => { s with projectRoot := x }
  | mode, x, s => { s with embedding := { s.embedding with mode := x } }
  | model, x, s => { s with embedding := { s.embedding with model := x } }
  | url, x, s => { s with embedding := { s.embedding with baseUrl := x } }
  | concurrency, x, s => { s with indexing := { s.indexing with concurrency := x } }

/-- What the text of a variable stands for. -/
def Says : (v : Variable) → String → v.Target → Prop
  | storePath, text, x => x = Path.ofText text
  | projectRoot, text, x => x = some (Path.ofText text)
  | mode, text, x => Text.lower (Text.trim text) = EmbeddingMode.name x
  | model, text, x => x = text
  | url, text, x => x = text
  | concurrency, text, x => ∃ n, Concurrency.Spells text n ∧ x = some (Concurrency.clamp n)

/-- Read the text of a variable. -/
def read? : (v : Variable) → String → Option v.Target
  | storePath, text => some (Path.ofText text)
  | projectRoot, text => some (some (Path.ofText text))
  | mode, text => EmbeddingMode.parse? text
  | model, text => some text
  | url, text => some text
  | concurrency, text => (Concurrency.read? text).map fun n => some (Concurrency.clamp n)

theorem read?_eq_some_iff (v : Variable) {text : String} {x : v.Target} :
    v.read? text = some x ↔ v.Says text x := by
  cases v with
  | mode => exact EmbeddingMode.parse?_eq_some_iff
  | concurrency =>
    change (Concurrency.read? text).map _ = some x ↔ _
    simp only [Option.map_eq_some_iff, Concurrency.read?_eq_some_iff, Says]
    exact exists_congr fun n => and_congr_right fun _ => eq_comm
  | _ => simp [read?, Says, eq_comm]

theorem look_eq_some {env : Environment} {name text : String} (given : env name = some text)
    (filled : Text.isBlankText text = false) : Overrides.look env name = some text := by
  simp [Overrides.look, given, filled]

/-- What a variable sets: nothing if it is not set itself, blank or not readable. -/
def value? (env : Environment) (v : Variable) : Option v.Target :=
  (Overrides.look env v.name).bind v.read?

theorem value?_eq_some (env : Environment) {v : Variable} {text : String} {x : v.Target}
    (given : env v.name = some text) (filled : Text.isBlankText text = false)
    (stands : v.Says text x) : v.value? env = some x := by
  rw [value?, look_eq_some given filled]
  exact v.read?_eq_some_iff.mpr stands

theorem value?_eq_none (env : Environment) {v : Variable} (silent : ∀ text, env v.name = some text →
    Text.isBlankText text = true ∨ ∀ x, ¬v.Says text x) : v.value? env = none := by
  rw [value?, Option.bind_eq_none_iff]
  intro text seen
  obtain ⟨given, filled⟩ := Option.filter_eq_some_iff.mp seen
  rcases silent text given with blank | mute
  · simp [blank] at filled
  · exact Option.eq_none_iff_forall_ne_some.mpr fun x read => mute x (v.read?_eq_some_iff.mp read)

theorem value?_congr {env env' : Environment} {v : Variable} (same : env' v.name = env v.name) :
    v.value? env' = v.value? env := by
  rw [value?, value?, Overrides.look, Overrides.look, same]

/-- Set what one variable sets. -/
def apply (env : Environment) (s : Settings) (v : Variable) : Settings :=
  match v.value? env with
  | none => s
  | some x => v.set x s

theorem get_set (v : Variable) (x : v.Target) (s : Settings) : v.get (v.set x s) = x := by
  cases v <;> rfl

/-- Other places keep what they hold. -/
theorem get_set_of_ne {v w : Variable} (other : v ≠ w) (x : w.Target) (s : Settings) :
    v.get (w.set x s) = v.get s := by
  cases v <;> cases w <;> first | rfl | exact absurd rfl other

theorem get_apply (env : Environment) (s : Settings) (v w : Variable) :
    v.get (apply env s w) = if v = w then (v.value? env).getD (v.get s) else v.get s := by
  unfold apply
  split
  · rename_i unset
    split
    · rename_i same
      rw [same, unset, Option.getD_none]
    · rfl
  · rename_i x set_
    split
    · rename_i same
      subst same
      rw [get_set, set_, Option.getD_some]
    · rename_i other
      exact get_set_of_ne other x s

/-- Variables that are applied one after another set their places from what was there at first. -/
theorem get_foldl (env : Environment) (vs : List Variable) (s : Settings) (v : Variable) :
    v.get (vs.foldl (apply env) s) =
      if v ∈ vs then (v.value? env).getD (v.get s) else v.get s := by
  induction vs generalizing s with
  | nil => rfl
  | cons w vs ih =>
    rw [List.foldl_cons, ih, get_apply]
    by_cases same : v = w
    · subst same
      cases v.value? env <;> simp
    · simp [same]

theorem get_applyEnvironment (env : Environment) (s : Settings) (v : Variable) :
    v.get (s.applyEnvironment env) = (v.value? env).getD (v.get s) := by
  rw [value?]
  cases v with
  | concurrency =>
    have either (o : Option String) :
        ((o.bind Concurrency.read?).map Concurrency.clamp).or s.indexing.concurrency =
          (o.bind concurrency.read?).getD s.indexing.concurrency := by
      cases o with
      | none => rfl
      | some text =>
        rw [Option.bind_some, Option.bind_some, read?]
        cases Concurrency.read? text <;> rfl
    exact either _
  | mode => rfl
  | projectRoot =>
    change ((Overrides.look env projectRoot.name).map Path.ofText).or _ = _
    cases Overrides.look env projectRoot.name <;> rfl
  | storePath =>
    change ((Overrides.look env storePath.name).map Path.ofText).getD _ = _
    cases Overrides.look env storePath.name <;> rfl
  | model =>
    change (Overrides.look env model.name).getD _ = _
    cases Overrides.look env model.name <;> rfl
  | url =>
    change (Overrides.look env url.name).getD _ = _
    cases Overrides.look env url.name <;> rfl

end Variable

/-- The settings with standard values in the places of all variables. -/
def unplaced (s : Settings) : Settings :=
  { s with
    storePath := standard.storePath
    projectRoot := standard.projectRoot
    embedding :=
      { s.embedding with
        mode := standard.embedding.mode
        model := standard.embedding.model
        baseUrl := standard.embedding.baseUrl }
    indexing := { s.indexing with concurrency := standard.indexing.concurrency } }

theorem unplaced_set (v : Variable) (x : v.Target) (s : Settings) :
    (v.set x s).unplaced = s.unplaced := by
  cases v <;> rfl

/-- Settings are what is in the places of variables and the rest. -/
theorem ext_places {s t : Settings} (rest : s.unplaced = t.unplaced)
    (places : ∀ v : Variable, v.get s = v.get t) : s = t := by
  obtain ⟨storePath, projectRoot, ⟨mode, model, url, dimension, timeout, metric⟩,
    ⟨batchSize, concurrency⟩, retrieval, extraction⟩ := s
  obtain ⟨storePath', projectRoot', ⟨mode', model', url', dimension', timeout', metric'⟩,
    ⟨batchSize', concurrency'⟩, retrieval', extraction'⟩ := t
  have storePaths := places .storePath
  have projectRoots := places .projectRoot
  have modes := places .mode
  have models := places .model
  have urls := places .url
  have concurrencies := places .concurrency
  simp only [Variable.get] at *
  simp_all [unplaced]

theorem unplaced_foldl (env : Environment) (vs : List Variable) (s : Settings) :
    (vs.foldl (Variable.apply env) s).unplaced = s.unplaced := by
  induction vs generalizing s with
  | nil => rfl
  | cons v vs ih =>
    rw [List.foldl_cons, ih, Variable.apply]
    split
    · rfl
    · exact unplaced_set v _ s

theorem unplaced_applyEnvironment (env : Environment) (s : Settings) :
    (s.applyEnvironment env).unplaced = s.unplaced := rfl

/-- What the environment does to settings. -/
structure Overridden (env : Environment) (s : Settings) : Prop where
  /-- Nothing changes but what is in the places of the variables. -/
  frame : (s.applyEnvironment env).unplaced = s.unplaced
  taken : ∀ (v : Variable) (text : String) (x : v.Target), env v.name = some text →
    Text.isBlankText text = false → v.Says text x → v.get (s.applyEnvironment env) = x
  /-- A variable that is not there, is blank or cannot be read changes nothing. -/
  kept : ∀ v : Variable, (∀ text, env v.name = some text →
    Text.isBlankText text = true ∨ ∀ x, ¬v.Says text x) → v.get (s.applyEnvironment env) = v.get s
  /-- No other variable counts for a place, and no other part of the settings. -/
  own : ∀ (v : Variable) (env' : Environment) (s' : Settings), env' v.name = env v.name →
    v.get s' = v.get s → v.get (s'.applyEnvironment env') = v.get (s.applyEnvironment env)
  /-- It is the same to apply the variables one by one, in any order and some of them again. -/
  order : ∀ vs : List Variable, (∀ v, v ∈ vs) →
    vs.foldl (Variable.apply env) s = s.applyEnvironment env
  again : (s.applyEnvironment env).applyEnvironment env = s.applyEnvironment env
  bounded : ∀ processors,
    1 ≤ (s.applyEnvironment env).indexing.resolvedConcurrency processors ∧
      (s.applyEnvironment env).indexing.resolvedConcurrency processors ≤ Concurrency.greatest
  /-- Without a number of its own the settings go by the variable as if it were read by itself. -/
  agrees : s.indexing.concurrency = none → ∀ processors,
    (s.applyEnvironment env).indexing.resolvedConcurrency processors =
      Concurrency.ofVariable processors (env Variable.concurrency.name)

theorem resolvedConcurrency_mem (s : IndexingSettings) (processors : Nat) :
    1 ≤ s.resolvedConcurrency processors ∧
      s.resolvedConcurrency processors ≤ Concurrency.greatest := by
  unfold IndexingSettings.resolvedConcurrency
  split
  · exact Concurrency.clamp_mem _
  · exact Concurrency.ofVariable_mem processors none

/-- Of the number in the environment the settings know what the variable alone tells. -/
theorem resolvedConcurrency_applyEnvironment (env : Environment) {s : Settings}
    (unset : s.indexing.concurrency = none) (processors : Nat) :
    (s.applyEnvironment env).indexing.resolvedConcurrency processors =
      Concurrency.ofVariable processors (env Variable.concurrency.name) := by
  have number : (Overrides.look env Variable.concurrency.name).bind Concurrency.read? =
      (env Variable.concurrency.name).bind Concurrency.read? := by
    cases given : env Variable.concurrency.name with
    | none => simp [Overrides.look, given]
    | some text =>
      cases blank : Text.isBlankText text with
      | true => simp [Overrides.look, given, blank, Concurrency.read?_of_blank blank]
      | false => rw [Variable.look_eq_some given blank]
  have place : (s.applyEnvironment env).indexing.concurrency =
      ((env Variable.concurrency.name).bind Concurrency.read?).map Concurrency.clamp := by
    rw [← number]
    change (((Overrides.look env Variable.concurrency.name).bind Concurrency.read?).map
      Concurrency.clamp).or s.indexing.concurrency = _
    rw [unset, Option.or_none]
  rw [IndexingSettings.resolvedConcurrency, place, Concurrency.ofVariable]
  cases (env Variable.concurrency.name).bind Concurrency.read? with
  | none => rfl
  | some n => exact Concurrency.clamp_clamp n

/-- Variables change their own places of the settings and nothing else, and they do so once. -/
theorem overridden (env : Environment) (s : Settings) : Overridden env s where
  frame := unplaced_applyEnvironment env s
  taken v text x given filled stands := by
    rw [Variable.get_applyEnvironment, Variable.value?_eq_some env given filled stands,
      Option.getD_some]
  kept v silent := by
    rw [Variable.get_applyEnvironment, Variable.value?_eq_none env silent, Option.getD_none]
  own v env' s' same held := by
    rw [Variable.get_applyEnvironment, Variable.get_applyEnvironment, Variable.value?_congr same,
      held]
  order vs all := by
    refine ext_places (unplaced_foldl env vs s) fun v => ?_
    rw [Variable.get_foldl, if_pos (all v), Variable.get_applyEnvironment]
  again := by
    refine ext_places rfl fun v => ?_
    rw [Variable.get_applyEnvironment, Variable.get_applyEnvironment]
    cases v.value? env <;> rfl
  bounded := resolvedConcurrency_mem _
  agrees unset := resolvedConcurrency_applyEnvironment env unset

/-- Too many files at once are as many as there may be. A blank path and an unknown mode set
nothing. -/
example :
    let env : Environment := fun name =>
      if name = "CODECHAT_INDEX_CONCURRENCY" then some " +500 "
      else if name = "CODECHAT_EMBEDDING_MODE" then some "onnx"
      else if name = "CODECHAT_STORE_PATH" then some "   "
      else none
    standard.applyEnvironment env =
      { standard with indexing := ⟨standardBatchSize, some 32⟩ } := by
  decide +kernel

end Settings

end CodeSearch
