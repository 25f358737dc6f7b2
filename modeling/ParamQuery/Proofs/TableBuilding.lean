/-
Tables as they are made: begun under a name, put into a schema, given columns
one by one, inferred from a sample or loaded from a description, in any order
(`Table.run`).

Whatever was done, a table that is written down and loaded again is the same
table (`load_toJson`): loading adds the columns anew, which changes nothing in a
list that was made by adding. For the names of the columns a table relies on
what it was loaded from: added columns never bring a name in twice, but loading
keeps every column that is listed (`names_nodup_iff`).
-/
import ParamQuery.Proofs.ColumnOrder
import ParamQuery.Schema.Encoding

namespace ParamQuery

/-! ## Fields -/

namespace Json

theorem find?_setField (key k : String) (v : Json) (fields : List (String × Json)) :
    (setField k v fields).find? (·.1 == key) = if k = key then some (k, v) else fields.find? (·.1 == key) := by
  induction fields with
  | nil => by_cases h : k = key <;> simp [setField, h]
  | cons f fields ih =>
    obtain ⟨l, w⟩ := f
    rw [setField]
    split
    · rename_i hkl
      by_cases h : k = key <;> simp [← hkl, h]
    · split
      · by_cases h : k = key <;> simp [h]
      · rename_i hkl _
        rw [List.find?_cons, List.find?_cons, ih]
        by_cases h : k = key
        · have hl : (l == key) = false := by simpa using fun hl => hkl (h.trans hl.symm)
          simp [h, hl]
        · simp [h]

/-- The last field with a key is the one that counts. -/
theorem get?_ofFields (fields : List (String × Json)) (key : String) :
    get? key (ofFields fields) = (fields.reverse.find? (·.1 == key)).map (·.2) := by
  have hfold : ∀ acc : List (String × Json), (fields.foldl (fun acc f => setField f.1 f.2 acc) acc).find? (·.1 == key) =
      (fields.reverse.find? (·.1 == key)).or (acc.find? (·.1 == key)) := by
    induction fields with
    | nil => simp
    | cons f fields ih =>
      intro acc
      obtain ⟨k, v⟩ := f
      rw [List.foldl_cons, ih, find?_setField, List.reverse_cons, List.find?_append, Option.or_assoc,
        List.find?_singleton]
      by_cases h : k = key <;> simp [h]
  simp [get?, ofFields, hfold]

/-- An object by its fields. -/
theorem exists_ofFields (fields : List (String × Json)) :
    ∃ object, ofFields fields = .object object ∧
      ∀ key, get? key (.object object) = (fields.reverse.find? (·.1 == key)).map (·.2) :=
  ⟨_, rfl, get?_ofFields fields⟩

theorem decodeList_map {α : Type} {item : Decoder α} {encode : α → Json} (h : ∀ a, item (encode a) = .ok a)
    (as : List α) : decodeList item (.array (as.map encode)) = .ok as := by
  rw [decodeList]
  induction as with
  | nil => rfl
  | cons a as ih => rw [List.map_cons, List.mapM_cons, h, ih]; rfl

end Json

/-! ## Columns written down -/

theorem ColumnType.ofName?_name (t : ColumnType) : ofName? t.name = some t := by
  cases t <;> decide +kernel

theorem ColumnType.decode_name (t : ColumnType) : ColumnType.decode (.string t.name) = .ok t := by
  simp [ColumnType.decode, Json.decodeString, ofName?_name, bind, Except.bind]

theorem Shape.decode_name (s : Shape) : Shape.decode (.string s.name) = .ok s := by
  cases s <;> rfl

theorem Json.decodeNat_ofNat (n : Nat) : Json.decodeNat (.number (.int n)) = .ok n := by
  simp [Json.decodeNat]

/-- The shape is written down, so that it is not taken from the type again. -/
theorem Column.decode_toJson (c : Column) : Column.decode c.toJson = .ok c := by
  obtain ⟨dbName, memberName, type, shape, position, nullable⟩ := c
  obtain ⟨object, hobject, hget⟩ := Json.exists_ofFields (("db_name", Json.string dbName) ::
    Json.optionalField "member_name" (memberName.map .string) ++
    [("pg_type", Json.string type.name), ("shape", Json.string shape.name)] ++
    Json.optionalField "position" (position.map fun p => .number (.int p)) ++ [("nullable", Json.bool nullable)])
  rw [Column.toJson, hobject, Column.decode]
  simp only [hget]
  cases memberName <;> cases position <;>
    simp [Json.optionalField, Json.decodeOr, Json.decodeOption, Json.decodeString, Json.decodeBool,
      ColumnType.decode_name, Shape.decode_name, Json.decodeNat_ofNat, bind, Except.bind, Column.ofParts]

/-- A table is written down with its columns in order. -/
theorem Table.load_toJson_of_numbered {t : Table} (h : Columns.IsNumbered t.columns.toList) :
    Table.load t.toJson = .ok t := by
  obtain ⟨schema, name, columns⟩ := t
  have hcolumns : Columns.decode columns.toJson = .ok columns := by
    rw [Columns.decode, Columns.toJson, Json.decodeList_map Column.decode_toJson]
    exact congrArg Except.ok (congrArg Columns.mk h.ofList_eq)
  obtain ⟨object, hobject, hget⟩ := Json.exists_ofFields (Json.optionalField "schema" (schema.map .string) ++
    [("name", Json.string name), ("columns", columns.toJson)])
  have hdecode : Table.decode (.object object) = .ok ⟨schema, name, columns⟩ := by
    rw [Table.decode]
    simp only [hget]
    cases schema <;>
      simp [Json.optionalField, Json.decodeOr, Json.decodeOption, Json.decodeString, hcolumns, bind, Except.bind]
  rw [Table.toJson, hobject, Table.load, hdecode]

/-! ## Tables in the making -/

namespace Table

/-- What can be done to make a table. -/
inductive Step where
  | new (name : String)
  | inSchema (schema : String)
  | column (c : Column)
  | infer (name : String) (fields : List (String × Json))
  | load (v : Json)

/-- The table behind a step. A column whose name is there already is left out,
and a description that cannot be loaded leaves the table as it was. -/
def step (t : Table) : Step → Table
  | .new name => { name := name }
  | .inSchema schema => { t with schema := some schema }
  | .column c => t.withColumn c
  | .infer name fields => Table.infer name fields
  | .load v => (Table.load v).toOption.getD t

/-- The table that steps make, one after another. -/
def run (steps : List Step) : Table := steps.foldl step {}

/-- What holds of an empty table and is kept by every step holds of every table. -/
theorem run_induction {P : Table → Prop} (hempty : P {}) (hstep : ∀ t s, P t → P (t.step s)) (steps : List Step) :
    P (run steps) := by
  rw [run]
  generalize ({} : Table) = t at hempty ⊢
  induction steps generalizing t with
  | nil => exact hempty
  | cons s steps ih => exact ih _ (hstep t s hempty)

/-- The columns that a description lists. -/
def described : Json → Except DecodeError (List Column)
  | .object fields => Json.decodeOr [] (Json.decodeList Column.decode) (Json.get? "columns" (.object fields))
  | .array items => Json.decodeOr [] (Json.decodeList Column.decode) items[2]?
  | _ => .ok []

theorem exists_of_bind_ok {α β : Type} {x : Except DecodeError α} {f : α → Except DecodeError β} {b : β}
    (h : (x >>= f) = .ok b) : ∃ a, x = .ok a ∧ f a = .ok b := by
  cases x with
  | error e => cases h
  | ok a => exact ⟨a, rfl, h⟩

theorem exists_of_decodeOr_columns {o : Option Json} {columns : Columns}
    (h : Json.decodeOr .empty Columns.decode o = .ok columns) :
    ∃ cs, Json.decodeOr [] (Json.decodeList Column.decode) o = .ok cs ∧ columns = .ofList cs := by
  cases o with
  | none => exact ⟨[], rfl, (Except.ok.inj h).symm⟩
  | some v =>
    obtain ⟨cs, hcs, h⟩ := exists_of_bind_ok (x := Json.decodeList Column.decode v) h
    exact ⟨cs, hcs, (Except.ok.inj h).symm⟩

/-- Loading adds the columns that are listed, one after another. -/
theorem load_cases {v : Json} {t : Table} (h : Table.load v = .ok t) :
    ∃ cs, described v = .ok cs ∧ t.columns = .ofList cs := by
  have hdecode : Table.decode v = .ok t := by
    unfold Table.load at h
    split at h
    · cases h
      assumption
    · cases h
  cases v with
  | object fields =>
    obtain ⟨columns, hcolumns, hrest⟩ := exists_of_bind_ok hdecode
    obtain ⟨name, -, hrest⟩ := exists_of_bind_ok hrest
    obtain ⟨schema, -, hrest⟩ := exists_of_bind_ok hrest
    obtain ⟨cs, hcs, rfl⟩ := exists_of_decodeOr_columns hcolumns
    cases name with
    | none => cases hrest
    | some name =>
      cases hrest
      exact ⟨cs, hcs, rfl⟩
  | array items =>
    obtain ⟨schema, -, hrest⟩ := exists_of_bind_ok hdecode
    dsimp only at hrest
    split at hrest
    · cases hrest
    · obtain ⟨name, -, hrest⟩ := exists_of_bind_ok hrest
      obtain ⟨columns, hcolumns, hrest⟩ := exists_of_bind_ok hrest
      obtain ⟨-, -, hrest⟩ := exists_of_bind_ok hrest
      obtain ⟨cs, hcs, rfl⟩ := exists_of_decodeOr_columns hcolumns
      cases hrest
      exact ⟨cs, hcs, rfl⟩
  | null | bool b | number n | string s => cases hdecode

/-! ## Order -/

theorem numbered_withColumn {t : Table} (h : Columns.IsNumbered t.columns.toList) (c : Column) :
    Columns.IsNumbered (t.withColumn c).columns.toList := by
  unfold withColumn addColumn?
  split
  · exact h
  · show Columns.IsNumbered (t.columns.add c).toList
    rw [Columns.toList_add]
    exact h.put c

/-- The columns of an inferred table are added one after another. -/
theorem infer_induction {P : Table → Prop} {name : String} (hnew : P { name := name })
    (hcolumn : ∀ t c, P t → P (t.withColumn c)) (fields : List (String × Json)) : P (infer name fields) := by
  rw [infer]
  generalize ({ name := name } : Table) = t at hnew ⊢
  induction fields generalizing t with
  | nil => exact hnew
  | cons f fields ih => exact ih _ (hcolumn t _ hnew)

theorem numbered_step {t : Table} (h : Columns.IsNumbered t.columns.toList) (s : Step) :
    Columns.IsNumbered (t.step s).columns.toList := by
  have hnew : Columns.IsNumbered [] := ⟨[], [], rfl, by simp⟩
  cases s with
  | new name => exact hnew
  | inSchema schema => exact h
  | column c => exact numbered_withColumn h c
  | infer name fields =>
    exact infer_induction (P := fun t => Columns.IsNumbered t.columns.toList) hnew
      (fun t c ht => numbered_withColumn ht c) fields
  | load v =>
    rw [step]
    cases hv : Table.load v with
    | error e => exact h
    | ok u =>
      obtain ⟨cs, -, hcs⟩ := load_cases hv
      show Columns.IsNumbered u.columns.toList
      rw [hcs]
      exact Columns.isNumbered_ofList cs

theorem numbered_run (steps : List Step) : Columns.IsNumbered (run steps).columns.toList :=
  run_induction (P := fun t => Columns.IsNumbered t.columns.toList) ⟨[], [], rfl, by simp⟩
    (fun _ s h => numbered_step h s) steps

/-- **A table that is written down can be loaded again.** Whatever steps have
made it, loading what it is written as gives the same table. -/
theorem load_toJson (steps : List Step) : Table.load (run steps).toJson = .ok (run steps) :=
  load_toJson_of_numbered (numbered_run steps)

/-! ## Names -/

/-- The names of the columns, in order. -/
def names (t : Table) : List String := t.columns.toList.map (·.dbName)

theorem names_perm_ofList (cs : List Column) :
    ((Columns.ofList cs).toList.map (·.dbName)).Perm (cs.map (·.dbName)) := by
  have hperm := (Columns.perm_ofList cs).map (·.dbName)
  rwa [List.map_map, List.map_map] at hperm

theorem names_perm_add (cs : Columns) (c : Column) :
    ((cs.add c).toList.map (·.dbName)).Perm (c.dbName :: cs.toList.map (·.dbName)) := by
  have hperm := (Columns.perm_put cs.toList c).map (·.dbName)
  rw [Columns.toList_add]
  rwa [List.map_cons, List.map_map, List.map_map] at hperm

theorem addColumn?_eq_none_iff (t : Table) (c : Column) : t.addColumn? c = none ↔ c.dbName ∈ t.names := by
  have hfound : (t.columnByName? c.dbName).isSome ↔ c.dbName ∈ t.names := by
    rw [columnByName?, List.find?_isSome]
    simp [names]
  unfold addColumn?
  by_cases h : (t.columnByName? c.dbName).isSome <;> simp [h, ← hfound]

/-- Adding a column does not make names coincide, nor does it part them. -/
theorem nodup_withColumn_iff (t : Table) (c : Column) : (t.withColumn c).names.Nodup ↔ t.names.Nodup := by
  unfold withColumn
  cases hadd : t.addColumn? c with
  | none => rfl
  | some u =>
    have hnew : c.dbName ∉ t.names := by
      rw [← addColumn?_eq_none_iff, hadd]
      simp
    have hu : u.names.Perm (c.dbName :: t.names) := by
      unfold addColumn? at hadd
      split at hadd
      · cases hadd
      · cases hadd
        exact names_perm_add t.columns c
    rw [Option.getD_some, hu.nodup_iff, List.nodup_cons]
    exact and_iff_right hnew

theorem nodup_infer (name : String) (fields : List (String × Json)) : (infer name fields).names.Nodup :=
  infer_induction (P := fun t => t.names.Nodup) List.nodup_nil (fun t c h => (nodup_withColumn_iff t c).2 h) fields

/-- The names that a description lists. -/
def listed (v : Json) : List String := ((described v).toOption.getD []).map (·.dbName)

/-- The names listed in what a table was last loaded from: none where it was
begun under a name or inferred. -/
def Step.origin (names : List String) : Step → List String
  | .new _ => []
  | .inSchema _ => names
  | .column _ => names
  | .infer _ _ => []
  | .load v => if (Table.load v).isOk then listed v else names

theorem names_perm_load {v : Json} {t : Table} (h : Table.load v = .ok t) : t.names.Perm (listed v) := by
  obtain ⟨cs, hcs, hcolumns⟩ := load_cases h
  rw [names, hcolumns, listed, hcs]
  exact names_perm_ofList cs

theorem nodup_step_iff {t : Table} {names : List String} (h : t.names.Nodup ↔ names.Nodup) (s : Step) :
    (t.step s).names.Nodup ↔ (s.origin names).Nodup := by
  cases s with
  | new name => exact Iff.rfl
  | inSchema schema => exact h
  | column c => exact (nodup_withColumn_iff t c).trans h
  | infer name fields => exact iff_of_true (nodup_infer name fields) List.nodup_nil
  | load v =>
    rw [step, Step.origin]
    cases hv : Table.load v with
    | error e => exact h
    | ok u => exact (names_perm_load hv).nodup_iff

/-- **Names are distinct unless a description repeats one.** Whatever steps have
made a table, no two of its columns have one name if and only if the description
that it was last loaded from, if any, lists no name twice: loading keeps every
column that is listed. A column is refused exactly if its name is there, and
then the table stays as it is. -/
theorem names_nodup_iff (steps : List Step) :
    ((run steps).names.Nodup ↔ (steps.foldl Step.origin []).Nodup) ∧
      (∀ v t, Table.load v = .ok t → t.names.Perm (listed v)) ∧
      ∀ (t : Table) (c : Column), (t.addColumn? c = none ↔ c.dbName ∈ t.names) ∧
        (t.addColumn? c = none → t.withColumn c = t) := by
  refine ⟨?_, fun v t => names_perm_load, fun t c => ⟨addColumn?_eq_none_iff t c, fun h => ?_⟩⟩
  · rw [run]
    have hempty : ({} : Table).names.Nodup ↔ ([] : List String).Nodup := Iff.rfl
    generalize ({} : Table) = t, ([] : List String) = listed at hempty ⊢
    induction steps generalizing t listed with
    | nil => exact hempty
    | cons s steps ih => exact ih _ _ (nodup_step_iff hempty s)
  · rw [withColumn, h]
    rfl

/-- A description of a table with the given columns of one type each. -/
def description (columns : List (String × ColumnType)) : Json :=
  .object [("columns", .array (columns.map fun c =>
    .object [("db_name", .string c.1), ("pg_type", .string c.2.name)])), ("name", .string "t")]

/-- A table is loaded, refuses a column that it has, and takes another one. -/
def widened : List Step :=
  [.load (description [("a", .text), ("b", .jsonb)]), .column { dbName := "a", position := some 1 },
    .column { dbName := "c", position := some 0 }]

theorem widened_names : (run widened).names = ["c", "a", "b"] ∧ (run widened).names.Nodup :=
  ⟨by decide +kernel, (names_nodup_iff widened).1.2 (by decide +kernel)⟩

/-- A description that lists a name twice is loaded with both columns. -/
theorem repeated_name_loaded :
    ¬∀ steps : List Step, (run steps).names.Nodup := fun h =>
  absurd (h [.load (description [("a", .text), ("a", .integer)])]) (by decide +kernel)

end Table

end ParamQuery
