import CodeSearch.Proofs.Data.Documents
import CodeSearch.Proofs.Store.Overlay
import CodeSearch.Proofs.Text.Utf8

/-! # Snapshots that are read again

Only the components of vectors may change when a snapshot is read from its bytes: each is what its
numeral is read as, and one that is not finite is written as null, which nothing reads. Lines and
lengths only have to fit words.
-/

namespace CodeSearch

/-- The text of a number is a numeral for that number. -/
def Json.ReadsBack (x : Single) : Prop :=
  ∃ y, Json.numeral (Json.scalar (.single x)) = some (y, []) ∧ y.value.single? = some x

/-- What is read again from the text of a number. -/
def Json.reread? (x : Single) : Option Single := (Json.number (Json.scalar (.single x))).single?

theorem Json.ReadsBack.spells {x : Single} (h : Json.ReadsBack x) :
    Json.Spells (Json.scalar (.single x)) := by
  obtain ⟨y, read, -⟩ := h
  exact .inr ⟨y, read⟩

theorem Json.ReadsBack.reread?_eq {x : Single} (h : Json.ReadsBack x) :
    Json.reread? x = some x := by
  obtain ⟨y, read, same⟩ := h
  rw [Json.reread?, Json.number_eq read, same]

namespace Json

variable {fs gs : List (String × Value)} {name : String}

theorem legible_record : Legible (.record fs) ↔ LegibleFields fs := by
  rw [Legible]

theorem legible_text (s : String) : Legible (.text s) := by
  unfold Legible
  trivial

theorem legibleFields_nil : LegibleFields [] := by
  rw [LegibleFields]
  trivial

theorem legibleFields_cons {v : Value} :
    LegibleFields ((name, v) :: fs) ↔ Legible v ∧ LegibleFields fs := by
  rw [LegibleFields]

theorem legible_integer (n : Int) : Legible (.integer n) := by
  unfold Legible
  trivial

theorem echo_text (s : String) : echo (.text s) = .text s := by
  simp only [echo]

theorem echo_record : echo (.record fs) = .record (echoFields fs) := by
  rw [echo]

/-- What fits a word is read as it was written. -/
theorem echo_natural {n : Nat} (h : n < wordSize) : echo (.integer n) = .integer n := by
  rw [echo]
  exact value_whole (by omega) (by omega)

theorem legibleFields_append :
    LegibleFields (fs ++ gs) ↔ LegibleFields fs ∧ LegibleFields gs := by
  induction fs with
  | nil => simp [legibleFields_nil]
  | cons f fs ih => rw [List.cons_append, legibleFields_cons, legibleFields_cons, ih, and_assoc]

theorem echoFields_append : echoFields (fs ++ gs) = echoFields fs ++ echoFields gs := by
  induction fs with
  | nil => rfl
  | cons f fs ih => simp [echoFields, ih]

theorem legibleFields_ifSet (s : Option String) :
    LegibleFields (Value.ifSet name (s.map .text)) := by
  cases s with
  | none => exact legibleFields_nil
  | some s => exact legibleFields_cons.mpr ⟨legible_text s, legibleFields_nil⟩

theorem echoFields_ifSet (s : Option String) :
    echoFields (Value.ifSet name (s.map .text)) = Value.ifSet name (s.map .text) := by
  cases s with
  | none => rfl
  | some s => simp [Value.ifSet, echoFields, echo]

end Json

namespace Metadata

variable {m : Metadata}

theorem legible_toValue (m : Metadata) : Json.Legible m.toValue := by
  simp only [toValue, toFields, Names.toFields, Json.legible_record, Json.legibleFields_append,
    Json.legibleFields_cons, Json.legibleFields_ifSet, Json.legible_integer, Json.legible_text,
    Json.legibleFields_nil, and_self]

theorem echo_toValue (first : m.startLine < wordSize) (last : m.endLine < wordSize) :
    Json.echo m.toValue = m.toValue := by
  have first' := Json.echo_natural first
  have last' := Json.echo_natural last
  simp only [toValue, toFields, Names.toFields, Json.echo_record, Json.echoFields_append,
    Json.echoFields_ifSet, Json.echoFields, first', last', Json.echo_text]

theorem fields?_toValue (m : Metadata) :
    Value.fields? Json.dialect fieldNames m.toValue =
      some [some (.text m.source), some (.integer m.startLine), some (.integer m.endLine),
        some (.text m.kind.name), m.names.functionName.map .text, m.names.className.map .text,
        m.names.structName.map .text, m.names.arrayName.map .text] := by
  obtain ⟨source, first, last, kind, ⟨_ | f, _ | c, _ | s, _ | a⟩⟩ := m <;> rfl

theorem read_map (s : Option String) : Names.read (s.map .text) = some s := by
  cases s <;> rfl

theorem ofValue?_toValue (first : m.startLine < wordSize) (last : m.endLine < wordSize) :
    ofValue? Json.dialect m.toValue = some m := by
  have start : Value.required Value.word? (some (.integer m.startLine)) = some m.startLine :=
    (Option.bind_some ..).trans (Value.word?_integer first)
  have stop : Value.required Value.word? (some (.integer m.endLine)) = some m.endLine :=
    (Option.bind_some ..).trans (Value.word?_integer last)
  have kind : Value.required (Value.choice? Json.dialect Kind.ofName?) (some (.text m.kind.name)) =
      some m.kind :=
    Kind.ofName?_name m.kind
  have source : Value.required Value.text? (some (.text m.source)) = some m.source := rfl
  rw [ofValue?, fields?_toValue, Option.bind_some, ofFields?]
  simp only [source, start, stop, kind, read_map, Option.bind_eq_bind, Option.bind_some]

end Metadata

namespace Record

variable {r : Record} {dimension : Nat}

/-- Records that fit a store and keep their numbers and lines in a document. -/
structure Storable (dimension : Nat) (r : Record) : Prop where
  length : r.vector.length = dimension
  reads : ∀ x ∈ r.vector, Json.ReadsBack x
  first : r.metadata.startLine < wordSize
  last : r.metadata.endLine < wordSize

/-- Records whose numbers and lines are written as such. -/
structure Legible (r : Record) : Prop where
  spells : ∀ x ∈ r.vector, Json.Spells (Json.scalar (.single x))
  first : r.metadata.startLine < wordSize
  last : r.metadata.endLine < wordSize

/-- What is read again from a record. -/
def reread? (r : Record) : Option Record :=
  (r.vector.mapM Json.reread?).map fun v => { r with vector := v }

theorem Storable.legible (storable : r.Storable dimension) : r.Legible :=
  ⟨fun x inside => (storable.reads x inside).spells, storable.first, storable.last⟩

theorem Storable.reread?_eq (storable : r.Storable dimension) : r.reread? = some r := by
  have vector : r.vector.mapM Json.reread? = some r.vector := by
    have reads := storable.reads
    generalize r.vector = xs at reads
    induction xs with
    | nil => rfl
    | cons x xs ih =>
      obtain ⟨first, rest⟩ := List.forall_mem_cons.mp reads
      rw [List.mapM_cons, first.reread?_eq, ih rest]
      rfl
  rw [reread?, vector]
  rfl

theorem legible_vector {xs : List Single}
    (spells : ∀ x ∈ xs, Json.Spells (Json.scalar (.single x))) :
    Json.Legible (.list (xs.map .single)) := by
  rw [Json.Legible]
  induction xs with
  | nil => trivial
  | cons x xs ih =>
    obtain ⟨first, rest⟩ := List.forall_mem_cons.mp spells
    rw [List.map_cons, Json.LegibleItems, Json.Legible]
    exact ⟨first, ih rest⟩

theorem legible_toValue (spells : ∀ x ∈ r.vector, Json.Spells (Json.scalar (.single x))) :
    Json.Legible r.toValue := by
  rw [Record.toValue, Json.legible_record]
  simp only [Json.legibleFields_cons, legible_vector spells, Json.legible_text,
    Metadata.legible_toValue r.metadata, Json.legibleFields_nil, and_self]

theorem echo_vector (xs : List Single) :
    Json.echo (.list (xs.map .single)) =
      .list (xs.map fun x => Json.number (Json.scalar (.single x))) := by
  rw [Json.echo]
  induction xs with
  | nil => rfl
  | cons x xs ih =>
    have rest := Value.list.inj ih
    rw [List.map_cons, Json.echoItems, Json.echo, rest, List.map_cons]

theorem echo_toValue (first : r.metadata.startLine < wordSize)
    (last : r.metadata.endLine < wordSize) : Json.echo r.toValue = .record
      [("vector", .list (r.vector.map fun x => Json.number (Json.scalar (.single x)))),
        ("document", .text r.document), ("metadata", r.metadata.toValue)] := by
  have metadata := Metadata.echo_toValue first last
  simp only [toValue, Json.echo_record, Json.echoFields, echo_vector, metadata, Json.echo_text]

theorem list?_numbers (xs : List Single) :
    Value.list? Value.single? (.list (xs.map fun x => Json.number (Json.scalar (.single x)))) =
      xs.mapM Json.reread? := by
  change (xs.map fun x => Json.number (Json.scalar (.single x))).mapM Value.single? = _
  rw [List.mapM_map]
  rfl

theorem ofValue?_echo (legible : r.Legible) :
    ofValue? Json.dialect (Json.echo r.toValue) = r.reread? := by
  have fields : ∀ v w : Value, Value.fields? Json.dialect ["vector", "document", "metadata"]
      (.record [("vector", v), ("document", .text r.document), ("metadata", w)]) =
        some [some v, some (.text r.document), some w] := fun _ _ => rfl
  have metadata := Metadata.ofValue?_toValue legible.first legible.last
  rw [echo_toValue legible.first legible.last, ofValue?, fields, reread?]
  simp only [Value.required, Option.bind_some, list?_numbers, metadata, Value.text?,
    Option.bind_eq_bind]
  cases r.vector.mapM Json.reread? <;> rfl

end Record

namespace Snapshot

variable {s : Snapshot}

/-- The numbers of a snapshot fit their types, and its records can be written. -/
structure Legible (s : Snapshot) : Prop where
  version : s.version < versionBound
  dimension : s.dimension < wordSize
  records : ∀ id r, s.records.get? id = some r → r.Legible

/-- What is read again from the records of a snapshot. -/
def reread? (records : Table Record) : Option (Table Record) :=
  (records.entries.mapM fun (e : String × Record) => e.2.reread?.map fun r => (e.1, r)).map
    Table.ofList

theorem legible_records {es : List (String × Record)}
    (spells : ∀ e ∈ es, ∀ x ∈ e.2.vector, Json.Spells (Json.scalar (.single x))) :
    Json.LegibleFields (es.map fun (id, r) => (id, r.toValue)) := by
  induction es with
  | nil => exact Json.legibleFields_nil
  | cons e es ih =>
    obtain ⟨first, rest⟩ := List.forall_mem_cons.mp spells
    rw [List.map_cons, Json.legibleFields_cons]
    exact ⟨Record.legible_toValue first, ih rest⟩

theorem mapM_echo {es : List (String × Record)} (legible : ∀ e ∈ es, e.2.Legible) :
    (Json.echoFields (es.map fun (id, r) => (id, r.toValue))).mapM (fun field =>
      (Record.ofValue? Json.dialect field.2).map fun r => (field.1, r)) =
        es.mapM fun e => e.2.reread?.map fun r => (e.1, r) := by
  induction es with
  | nil => rfl
  | cons e es ih =>
    obtain ⟨first, rest⟩ := List.forall_mem_cons.mp legible
    rw [List.map_cons, Json.echoFields, List.mapM_cons, List.mapM_cons, ih rest,
      Record.ofValue?_echo first]

theorem records?_echo {records : Table Record} (legible : ∀ e ∈ records.entries, e.2.Legible) :
    records? Json.dialect
        (Json.echo (.record (records.entries.map fun (id, r) => (id, r.toValue)))) =
      reread? records := by
  rw [Json.echo, records?, reread?]
  simp only
  rw [mapM_echo legible]

theorem echo_toValue (s : Snapshot) : Json.echo s.toValue = .record
    [("schema_version", Json.echo (.integer s.version)),
      ("dimension", Json.echo (.integer s.dimension)), ("metric", .text s.metric.name),
      ("records", Json.echo (.record (s.records.entries.map fun (id, r) => (id, r.toValue))))] := by
  rw [toValue, Json.echo_record]
  simp only [Json.echoFields, Json.echo_text]

theorem Legible.entries (legible : s.Legible) : ∀ e ∈ s.records.entries, e.2.Legible :=
  fun e he => legible.records e.1 e.2 (Table.mem_entries_iff.mp he)

theorem ofValue?_echo (legible : s.Legible) : ofValue? Json.dialect (Json.echo s.toValue) =
    (reread? s.records).map fun records => { s with records := records } := by
  have fields : ∀ version dimension metric records : Value,
      Value.fields? Json.dialect ["schema_version", "dimension", "metric", "records"]
        (.record [("schema_version", version), ("dimension", dimension), ("metric", metric),
          ("records", records)]) =
        some [some version, some dimension, some metric, some records] := fun _ _ _ _ => rfl
  have small : s.version < wordSize := Nat.lt_trans legible.version (by decide)
  have version : Value.required (Value.natural? versionBound) (some (.integer s.version)) =
      some s.version := by
    refine (Option.bind_some ..).trans ?_
    simp [Value.natural?, legible.version]
  have dimension : Value.required Value.word? (some (.integer s.dimension)) = some s.dimension :=
    (Option.bind_some ..).trans (Value.word?_integer legible.dimension)
  have metric : Value.required (Value.choice? Json.dialect Metric.ofName?)
      (some (.text s.metric.name)) = some s.metric :=
    Metric.ofName?_name s.metric
  have records := (Option.bind_some ..).trans (records?_echo legible.entries)
  rw [echo_toValue, Json.echo_natural small, Json.echo_natural legible.dimension, ofValue?, fields]
  simp only [version, dimension, metric, Option.bind_eq_bind, Option.bind_some]
  rw [Value.required, records]
  cases reread? s.records <;> rfl

theorem legible_toValue (spells : ∀ e ∈ s.records.entries, ∀ x ∈ e.2.vector,
    Json.Spells (Json.scalar (.single x))) : Json.Legible s.toValue := by
  rw [Snapshot.toValue, Json.legible_record]
  simp only [Json.legibleFields_cons, Json.legible_integer, Json.legible_text,
    Json.legible_record, legible_records spells, Json.legibleFields_nil, and_self]

/-- A snapshot is read from its bytes as from its document. -/
theorem decode?_encode_eq (legible : Json.Legible s.toValue) :
    decode? s.encode = ofValue? Json.dialect (Json.echo s.toValue) := by
  rw [decode?, encode, Utf8.decode?_encode, Option.bind_some, Json.parse?_toLine legible,
    Option.bind_some]

/-- A snapshot is read again with the records that its own are read as. -/
theorem decode?_encode (legible : s.Legible) :
    decode? s.encode = (reread? s.records).map fun records => { s with records := records } := by
  have written := legible_toValue fun e inside => (legible.entries e inside).spells
  rw [decode?_encode_eq written, ofValue?_echo legible]

variable {dimension : Nat} {metric : Metric} {records : Table Record}

/-- What a load finds in the snapshot of some records. -/
theorem recordsFor_encode_of_legible (word : dimension < wordSize)
    (legible : ∀ id r, records.get? id = some r → r.Legible) :
    recordsFor dimension (encode ⟨StoreError.schemaVersion, dimension, metric, records⟩) =
      match reread? records with
      | none => .error .document
      | some again => .ok again := by
  have version : StoreError.schemaVersion < versionBound := by decide
  have read := decode?_encode (s := ⟨StoreError.schemaVersion, dimension, metric, records⟩)
    ⟨version, word, legible⟩
  rw [recordsFor, read]
  cases reread? records <;> simp

theorem reread?_of_storable
    (storable : ∀ id r, records.get? id = some r → ∃ dimension, r.Storable dimension) :
    reread? records = some records := by
  have entries : ∀ e ∈ records.entries, ∃ dimension, e.2.Storable dimension :=
    fun e inside => storable e.1 e.2 (Table.mem_entries_iff.mp inside)
  have same : ∀ es : List (String × Record), (∀ e ∈ es, ∃ dimension, e.2.Storable dimension) →
      (es.mapM fun e => e.2.reread?.map fun r => (e.1, r)) = some es := by
    intro es storable
    induction es with
    | nil => rfl
    | cons e es ih =>
      obtain ⟨⟨dimension, first⟩, rest⟩ := List.forall_mem_cons.mp storable
      rw [List.mapM_cons, first.reread?_eq, ih rest]
      rfl
  rw [reread?, same _ entries, Option.map_some, Table.ofList_entries]

/-- The records of a snapshot are read as they were written, whatever the lengths of their
vectors. -/
theorem recordsFor_encode_of_each (word : dimension < wordSize)
    (storable : ∀ id r, records.get? id = some r → ∃ dimension, r.Storable dimension) :
    recordsFor dimension (encode ⟨StoreError.schemaVersion, dimension, metric, records⟩) =
      .ok records := by
  have legible : ∀ id r, records.get? id = some r → r.Legible := fun id r there =>
    (storable id r there).elim fun _ storable => storable.legible
  rw [recordsFor_encode_of_legible word legible, reread?_of_storable storable]

theorem recordsFor_encode (word : dimension < wordSize)
    (storable : ∀ id r, records.get? id = some r → r.Storable dimension) :
    recordsFor dimension (encode ⟨StoreError.schemaVersion, dimension, metric, records⟩) =
      .ok records :=
  recordsFor_encode_of_each word fun id r there => ⟨dimension, storable id r there⟩

end Snapshot

end CodeSearch
