import CodeSearch.Proofs.Data.Numerals
import CodeSearch.Proofs.Data.Strings

/-! # Documents that are read as they were written

A value that is written on one line is read again from that line. Only numbers may change:
each is what its numeral is read as.
-/

namespace CodeSearch

namespace Json

variable {c : Char} {cs rest : List Char} {fuel : Nat} {x : Numeral}

/-- The value of a text that is one numeral, or null. -/
def number (cs : List Char) : Value :=
  match numeral cs with
  | some (x, _) => x.value
  | none => .null

/-- Texts of numbers: a numeral, or null for what is not finite. -/
def Spells (cs : List Char) : Prop := cs = ['n', 'u', 'l', 'l'] ∨ ∃ y, numeral cs = some (y, [])

/-- The numeral of an integer. -/
def whole (n : Int) : Numeral := ⟨n < 0, Decimal.digits n.natAbs, [], none⟩

mutual

/-- What the text of a value is read as. -/
def echo : Value → Value
  | .integer n => (whole n).value
  | .real x => number (scalar (.real x))
  | .single x => number (scalar (.single x))
  | .list vs => .list (echoItems vs)
  | .record fs => .record (echoFields fs)
  | v => v

def echoItems : List Value → List Value
  | [] => []
  | v :: vs => echo v :: echoItems vs

def echoFields : List (String × Value) → List (String × Value)
  | [] => []
  | (name, v) :: fs => (name, echo v) :: echoFields fs

end

mutual

/-- Numbers are written as such. -/
def Legible : Value → Prop
  | .real x => Spells (scalar (.real x))
  | .single x => Spells (scalar (.single x))
  | .list vs => LegibleItems vs
  | .record fs => LegibleFields fs
  | .foreign => False
  | _ => True

def LegibleItems : List Value → Prop
  | [] => True
  | v :: vs => Legible v ∧ LegibleItems vs

def LegibleFields : List (String × Value) → Prop
  | [] => True
  | (_, v) :: fs => Legible v ∧ LegibleFields fs

end

/-- An integer that fits a word is read again. -/
theorem value_whole {n : Int} (lower : -(wordSize : Int) ≤ 2 * n) (upper : n < wordSize) :
    (whole n).value = .integer n := by
  have word : Decimal.ofDigits (Decimal.digits n.natAbs) = n.natAbs := ofDigits_digits _
  have fits : n.natAbs < wordSize := by
    have big : 0 < wordSize := by decide
    omega
  unfold Numeral.value Numeral.isWord whole
  simp only [word]
  by_cases negative : n < 0
  · have above : 0 < n.natAbs ∧ 2 * n.natAbs ≤ wordSize := by omega
    have back : -(n.natAbs : Int) = n := by omega
    generalize n.natAbs = m at fits above back
    simp [negative, fits, above, back]
  · have back : (n.natAbs : Int) = n := by omega
    generalize n.natAbs = m at fits back
    simp [negative, fits, back]

/-- A character that a value starts with. -/
def Opens (c : Char) : Prop :=
  c ∉ [' ', '\n', '\t', '\r', ']', '\x7d']

instance : Decidable (Opens c) := inferInstanceAs (Decidable (c ∉ _))

theorem skip_opens (opens : Opens c) : skip (c :: cs) = c :: cs := by
  simp only [Opens, List.mem_cons, not_or] at opens
  obtain ⟨h₁, h₂, h₃, h₄, -⟩ := opens
  simp [skip, h₁, h₂, h₃, h₄]

theorem opens_of_isDigit (h : c = '-' ∨ c.isDigit = true) : Opens c := by
  intro inside
  rcases h with rfl | digit
  · exact absurd inside (by decide)
  · simp only [List.mem_cons, List.not_mem_nil, or_false] at inside
    rcases inside with rfl | rfl | rfl | rfl | rfl | rfl <;> exact absurd digit (by decide)

theorem value_numeral (h : numeral cs = some (x, [])) (stops : Stops rest) :
    value (fuel + 1) (cs ++ rest) = some (x.value, rest) := by
  have whole := numeral_append stops h
  obtain ⟨c, tail, rfl, digit⟩ := head_of_numeral h
  rw [value, List.cons_append, skip_opens (opens_of_isDigit digit)]
  have other : ∀ d ∈ ['n', 't', 'f', '"', '[', '\x7b'], c ≠ d := by
    rintro d inside rfl
    rcases digit with rfl | digit
    · exact absurd inside (by decide)
    · simp only [List.mem_cons, List.not_mem_nil, or_false] at inside
      rcases inside with rfl | rfl | rfl | rfl | rfl | rfl <;> exact absurd digit (by decide)
  split
  · rename_i same
    exact absurd (List.cons.inj same).1 (other _ (by decide))
  · rename_i same
    exact absurd (List.cons.inj same).1 (other _ (by decide))
  · rename_i same
    exact absurd (List.cons.inj same).1 (other _ (by decide))
  · rename_i same
    exact absurd (List.cons.inj same).1 (other _ (by decide))
  · rename_i same
    exact absurd (List.cons.inj same).1 (other _ (by decide))
  · rename_i same
    exact absurd (List.cons.inj same).1 (other _ (by decide))
  · rw [List.cons_append] at whole
    rw [whole]
    rfl

variable {d : Nat} {v : Value} {vs : List Value} {fs : List (String × Value)} {s : String}

theorem render_items : render compact d (.list (v :: vs)) =
    '[' :: (render compact (d + 1) v ++ (renderItems compact d vs ++ [']'])) := by
  simp [render, compact]

theorem renderItems_cons : renderItems compact d (v :: vs) =
    ',' :: (render compact (d + 1) v ++ renderItems compact d vs) := by
  simp [renderItems, compact]

theorem render_fields : render compact d (.record ((s, v) :: fs)) =
    '\x7b' :: (quote s ++ ':' :: (render compact (d + 1) v ++
      (renderFields compact d fs ++ ['\x7d']))) := by
  simp [render, compact]

theorem renderFields_cons : renderFields compact d ((s, v) :: fs) =
    ',' :: (quote s ++ ':' :: (render compact (d + 1) v ++ renderFields compact d fs)) := by
  simp [renderFields, compact]

theorem stops_items (vs : List Value) (d : Nat) (rest : List Char) :
    Stops (renderItems compact d vs ++ ']' :: rest) := by
  cases vs with
  | nil => simp [renderItems, Stops]
  | cons v vs =>
    rw [renderItems_cons]
    simp [Stops]

theorem stops_fields (fs : List (String × Value)) (d : Nat) (rest : List Char) :
    Stops (renderFields compact d fs ++ '\x7d' :: rest) := by
  cases fs with
  | nil => simp [renderFields, Stops]
  | cons f fs =>
    rw [renderFields_cons]
    simp [Stops]

theorem render_scalar (v : Value) (whole : ∀ vs, v ≠ .list vs) (whole' : ∀ fs, v ≠ .record fs) :
    render compact d v = scalar v := by
  cases v with
  | list vs => exact absurd rfl (whole vs)
  | record fs => exact absurd rfl (whole' fs)
  | _ => simp [render]

theorem render_bool (b : Bool) : render compact d (.bool b) = (toString b).toList := by
  rw [render_scalar (.bool b) nofun nofun]
  cases b <;> rfl

/-- The text of a value starts with no blank and no closing mark. -/
theorem head_render (legible : Legible v) :
    ∃ c cs, render compact d v = c :: cs ∧ Opens c := by
  have spelled : ∀ cs, Spells cs → ∃ c tail, cs = c :: tail ∧ Opens c := by
    rintro cs (rfl | ⟨y, read⟩)
    · exact ⟨'n', _, rfl, by decide⟩
    · obtain ⟨c, tail, rfl, digit⟩ := head_of_numeral read
      exact ⟨c, tail, rfl, opens_of_isDigit digit⟩
  cases v with
  | null =>
    rw [render_scalar .null nofun nofun]
    exact ⟨'n', _, rfl, by decide⟩
  | bool b =>
    rw [render_bool]
    cases b with
    | true => exact ⟨'t', _, rfl, by decide⟩
    | false => exact ⟨'f', _, rfl, by decide⟩
  | integer n =>
    rw [render_scalar (.integer n) nofun nofun]
    exact spelled _ (.inr ⟨_, numeral_digits _ _⟩)
  | real x =>
    rw [render_scalar (.real x) nofun nofun]
    exact spelled _ legible
  | single x =>
    rw [render_scalar (.single x) nofun nofun]
    exact spelled _ legible
  | text s =>
    rw [render_scalar (.text s) nofun nofun]
    exact ⟨'"', _, rfl, by decide⟩
  | list vs =>
    cases vs with
    | nil => exact ⟨'[', [']'], by rw [render], by decide⟩
    | cons v vs => exact ⟨'[', _, render_items, by decide⟩
  | record fs =>
    cases fs with
    | nil => exact ⟨'\x7b', ['\x7d'], by rw [render], by decide⟩
    | cons f fs => exact ⟨'\x7b', _, render_fields, by decide⟩
  | foreign => exact legible.elim

/-! ## The reader at each mark -/

theorem value_null : value (fuel + 1) ('n' :: 'u' :: 'l' :: 'l' :: cs) = some (.null, cs) := by
  rw [value, skip_opens (by decide)]
  rfl

theorem value_bool (b : Bool) :
    value (fuel + 1) ((toString b).toList ++ cs) = some (.bool b, cs) := by
  rw [value]
  cases b <;> rfl

theorem value_text (s : String) (rest : List Char) :
    value (fuel + 1) (quote s ++ rest) = some (.text s, rest) := by
  obtain ⟨ps, whole, read, text, -⟩ := pieces_quote s rest
  rw [value, whole, skip_opens (by decide)]
  simp only [read, text, Option.map_some]

theorem value_nil : value (fuel + 1) ('[' :: ']' :: cs) = some (.list [], cs) := by
  rw [value]
  rfl

theorem value_empty : value (fuel + 1) ('\x7b' :: '\x7d' :: cs) = some (.record [], cs) := by
  rw [value]
  rfl

theorem value_items (opens : Opens c) :
    value (fuel + 1) ('[' :: c :: cs) =
      (items fuel (c :: cs)).map fun (vs, rest) => (.list vs, rest) := by
  have other : c ≠ ']' := by
    rintro rfl
    exact absurd opens (by decide)
  rw [value, skip_opens (by decide)]
  simp only [skip_opens opens]
  split
  · rename_i same
    exact absurd (List.cons.inj same).1 other
  · rfl

theorem value_fields (opens : Opens c) :
    value (fuel + 1) ('\x7b' :: c :: cs) =
      (fields fuel (c :: cs)).map fun (fs, rest) => (record fs, rest) := by
  have other : c ≠ '\x7d' := by
    rintro rfl
    exact absurd opens (by decide)
  rw [value, skip_opens (by decide)]
  simp only [skip_opens opens]
  split
  · rename_i same
    exact absurd (List.cons.inj same).1 other
  · rfl

theorem items_last {text : List Char} (read : value fuel text = some (v, ']' :: cs)) :
    items (fuel + 1) text = some ([v], cs) := by
  rw [items, read]
  rfl

theorem items_next {text : List Char} (read : value fuel text = some (v, ',' :: cs))
    (next : items fuel cs = some (vs, rest)) : items (fuel + 1) text = some (v :: vs, rest) := by
  rw [items, read]
  change (do let (vs, rest) ← items fuel cs; some (v :: vs, rest)) = _
  rw [next]
  rfl

variable {fs' : List (Option String × Value)}

theorem fields_last {text : List Char} (read : value fuel text = some (v, '\x7d' :: cs)) :
    fields (fuel + 1) (quote s ++ ':' :: text) = some ([(some s, v)], cs) := by
  obtain ⟨ps, whole, pieces, -, named⟩ := pieces_quote s (':' :: text)
  rw [fields, whole, skip_opens (by decide)]
  simp only [pieces, Option.bind_eq_bind, Option.bind_some, skip_opens (c := ':') (by decide), read]
  rw [named]
  rfl

theorem fields_next {text : List Char} (read : value fuel text = some (v, ',' :: cs))
    (next : fields fuel cs = some (fs', rest)) :
    fields (fuel + 1) (quote s ++ ':' :: text) = some ((some s, v) :: fs', rest) := by
  obtain ⟨ps, whole, pieces, -, named⟩ := pieces_quote s (':' :: text)
  rw [fields, whole, skip_opens (by decide)]
  simp only [pieces, Option.bind_eq_bind, Option.bind_some, skip_opens (c := ':') (by decide), read]
  rw [named]
  change (do let (fs, rest) ← fields fuel cs; some ((some s, v) :: fs, rest)) = _
  rw [next]
  rfl

/-! ## Whole values -/

theorem number_eq (read : numeral cs = some (x, [])) : number cs = x.value := by
  simp [number, read]

theorem value_number (spells : Spells cs) (stops : Stops rest) :
    value (fuel + 1) (cs ++ rest) = some (number cs, rest) := by
  rcases spells with rfl | ⟨y, read⟩
  · exact value_null
  · rw [number_eq read]
    exact value_numeral read stops

theorem record_fields (fs : List (String × Value)) :
    record (fs.map fun f => (some f.1, f.2)) = .record fs := by
  have same : (fs.map fun f => (some f.1, f.2)).mapM
      (fun (f : Option String × Value) => f.1.map (·, f.2)) = some fs := by
    induction fs with
    | nil => rfl
    | cons f fs ih => simp [List.mapM_cons, ih]
  unfold record
  rw [same]

theorem length_render (legible : Legible v) : 0 < (render compact d v).length := by
  obtain ⟨c, cs, text, -⟩ := head_render (d := d) legible
  rw [text]
  exact Nat.succ_pos _

mutual

theorem value_render : ∀ (v : Value) (d fuel : Nat) (rest : List Char), Legible v →
    2 * (render compact d v).length ≤ fuel + 1 → Stops rest →
      value (fuel + 1) (render compact d v ++ rest) = some (echo v, rest)
  | .null, _, _, _, _, _, _ => by
    rw [render_scalar .null nofun nofun]
    exact value_null
  | .bool b, _, _, _, _, _, _ => by
    rw [render_bool]
    exact value_bool b
  | .integer n, _, _, _, _, _, stops => by
    rw [render_scalar (.integer n) nofun nofun, echo]
    exact value_numeral (numeral_digits _ _) stops
  | .real x, _, _, _, legible, _, stops => by
    rw [render_scalar (.real x) nofun nofun, echo]
    exact value_number legible stops
  | .single x, _, _, _, legible, _, stops => by
    rw [render_scalar (.single x) nofun nofun, echo]
    exact value_number legible stops
  | .text s, _, _, rest, _, _, _ => by
    rw [render_scalar (.text s) nofun nofun]
    exact value_text s rest
  | .list [], _, _, _, _, _, _ => by
    rw [render]
    exact value_nil
  | .list (v :: vs), d, fuel, rest, legible, enough, _ => by
    rw [render_items] at enough ⊢
    simp only [List.length_cons, List.length_append, List.length_nil] at enough
    have read := items_render v vs d fuel rest legible (by omega)
    obtain ⟨c, cs, text, opens⟩ := head_render (d := d + 1) legible.1
    rw [text] at read ⊢
    simp only [List.cons_append, List.append_assoc, List.nil_append] at read ⊢
    rw [value_items opens, read]
    rfl
  | .record [], _, _, _, _, _, _ => by
    rw [render]
    exact value_empty
  | .record ((s, v) :: fs), d, fuel, rest, legible, enough, _ => by
    rw [render_fields] at enough ⊢
    simp only [List.length_cons, List.length_append, List.length_nil] at enough
    have read := fields_render s v fs d fuel rest legible (by omega)
    obtain ⟨cs, mark⟩ : ∃ cs, quote s = '"' :: cs := ⟨_, rfl⟩
    rw [mark] at read ⊢
    simp only [List.cons_append, List.append_assoc, List.nil_append] at read ⊢
    rw [value_fields (by decide), read, Option.map_some]
    change some (record _, rest) = _
    rw [record_fields]
    rfl
  | .foreign, _, _, _, legible, _, _ => legible.elim
termination_by v => sizeOf v

theorem items_render : ∀ (v : Value) (vs : List Value) (d fuel : Nat) (rest : List Char),
    LegibleItems (v :: vs) → 2 * (render compact (d + 1) v).length +
      2 * (renderItems compact d vs).length + 1 ≤ fuel →
        items fuel (render compact (d + 1) v ++ (renderItems compact d vs ++ ']' :: rest)) =
          some (echoItems (v :: vs), rest)
  | v, [], d, fuel, rest, legible, enough => by
    have filled := length_render (d := d + 1) legible.1
    obtain ⟨fuel, rfl⟩ : ∃ n, fuel = n + 2 := ⟨fuel - 2, by omega⟩
    exact items_last (value_render v (d + 1) fuel _ legible.1 (by omega) (stops_items [] d rest))
  | v, w :: vs, d, fuel, rest, legible, enough => by
    have filled := length_render (d := d + 1) legible.1
    obtain ⟨fuel, rfl⟩ : ∃ n, fuel = n + 2 := ⟨fuel - 2, by omega⟩
    have read := value_render v (d + 1) fuel _ legible.1 (by omega) (stops_items (w :: vs) d rest)
    rw [renderItems_cons] at enough read ⊢
    simp only [List.length_cons, List.length_append] at enough
    have next := items_render w vs d (fuel + 1) rest legible.2 (by omega)
    simp only [List.cons_append, List.append_assoc] at read ⊢
    exact items_next read next
termination_by v vs => sizeOf v + sizeOf vs

theorem fields_render : ∀ (s : String) (v : Value) (fs : List (String × Value)) (d fuel : Nat)
    (rest : List Char), LegibleFields ((s, v) :: fs) → 2 * (render compact (d + 1) v).length +
      2 * (renderFields compact d fs).length + 1 ≤ fuel →
        fields fuel (quote s ++ ':' :: (render compact (d + 1) v ++
          (renderFields compact d fs ++ '\x7d' :: rest))) =
            some ((echoFields ((s, v) :: fs)).map fun f => (some f.1, f.2), rest)
  | s, v, [], d, fuel, rest, legible, enough => by
    have filled := length_render (d := d + 1) legible.1
    obtain ⟨fuel, rfl⟩ : ∃ n, fuel = n + 2 := ⟨fuel - 2, by omega⟩
    exact fields_last (value_render v (d + 1) fuel _ legible.1 (by omega) (stops_fields [] d rest))
  | s, v, (s', w) :: fs, d, fuel, rest, legible, enough => by
    have filled := length_render (d := d + 1) legible.1
    obtain ⟨fuel, rfl⟩ : ∃ n, fuel = n + 2 := ⟨fuel - 2, by omega⟩
    have read := value_render v (d + 1) fuel _ legible.1 (by omega)
      (stops_fields ((s', w) :: fs) d rest)
    rw [renderFields_cons] at enough read ⊢
    simp only [List.length_cons, List.length_append] at enough
    have next := fields_render s' w fs d (fuel + 1) rest legible.2 (by omega)
    simp only [List.cons_append, List.append_assoc] at read ⊢
    exact fields_next read next
termination_by _ v fs => sizeOf v + sizeOf fs + 1

end

/-- A value on one line is read as its echo. -/
theorem parse?_toLine (legible : Legible v) : parse? (toLine v) = some (echo v) := by
  have read := value_render v 1 (3 * (render compact 1 v).length + 2) [] legible (by omega)
    stops_nil
  rw [List.append_nil] at read
  unfold parse? toLine
  simp only [String.toList_ofList]
  rw [read]
  rfl

end Json

end CodeSearch
