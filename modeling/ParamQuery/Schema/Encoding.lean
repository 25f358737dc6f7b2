/-
Tables and columns as JSON. A record is an object with named fields or an
array with the fields in declaration order. An object's fields are read in
the order of their keys, and what is required is missed only after that.
-/
import ParamQuery.Json.Decode
import ParamQuery.Json.Reader
import ParamQuery.Schema.Table

namespace ParamQuery

/-! ## Reading -/

/-- A type from one of its names. -/
def ColumnType.decode : Json.Decoder ColumnType := fun v => do
  let s ← Json.decodeString v
  match ColumnType.ofName? s with
  | some t => .ok t
  | none => .error (.unknownColumnType s)

/-- A shape from its name. -/
def Shape.decode : Json.Decoder Shape := Json.decodeVariant Shape.byName

namespace Column

/-- A column whose type and shape may be left to their defaults. -/
def ofParts (dbName : String) (memberName : Option String) (type : Option ColumnType)
    (shape : Option Shape) (position : Option Nat) (nullable : Bool) : Column :=
  let type := type.getD .text
  ⟨dbName, memberName, type, shape.getD type.shape, position, nullable⟩

/-- A column from its fields, or from a list of them. It has to have a name. -/
def decode : Json.Decoder Column
  | .object fields => do
    let field (key : String) : Option Json := Json.get? key (.object fields)
    let dbName ← Json.decodeOr none (some <$> Json.decodeString ·) (field "db_name")
    let memberName ← Json.decodeOr none (Json.decodeOption Json.decodeString) (field "member_name")
    let nullable ← Json.decodeOr true Json.decodeBool (field "nullable")
    let type ← Json.decodeOr none (Json.decodeOption ColumnType.decode) (field "pg_type")
    let position ← Json.decodeOr none (Json.decodeOption Json.decodeNat) (field "position")
    let shape ← Json.decodeOr none (Json.decodeOption Shape.decode) (field "shape")
    match dbName with
    | none => .error (.missingField "db_name")
    | some dbName => .ok (ofParts dbName memberName type shape position nullable)
  | .array items => do
    let dbName ← match items[0]? with
      | none => .error (.invalidLength 0 "struct ColumnBuilder with 6 elements")
      | some v => Json.decodeString v
    let memberName ← Json.decodeOr none (Json.decodeOption Json.decodeString) items[1]?
    let type ← Json.decodeOr none (Json.decodeOption ColumnType.decode) items[2]?
    let shape ← Json.decodeOr none (Json.decodeOption Shape.decode) items[3]?
    let position ← Json.decodeOr none (Json.decodeOption Json.decodeNat) items[4]?
    let nullable ← Json.decodeOr true Json.decodeBool items[5]?
    Json.checkLength 6 items
    return ofParts dbName memberName type shape position nullable
  | v => .error (.invalidType v "struct ColumnBuilder")

end Column

/-- Columns from a list of them. -/
def Columns.decode : Json.Decoder Columns := fun v =>
  Columns.ofList <$> Json.decodeList Column.decode v

/-- A table from its fields, or from a list of them. It has to have a name. -/
def Table.decode : Json.Decoder Table
  | .object fields => do
    let field (key : String) : Option Json := Json.get? key (.object fields)
    let columns ← Json.decodeOr .empty Columns.decode (field "columns")
    let name ← Json.decodeOr none (some <$> Json.decodeString ·) (field "name")
    let schema ← Json.decodeOr none (Json.decodeOption Json.decodeString) (field "schema")
    match name with
    | none => .error (.missingField "name")
    | some name => .ok ⟨schema, name, columns⟩
  | .array items => do
    let schema ← Json.decodeOr none (Json.decodeOption Json.decodeString) items[0]?
    let name ← match items[1]? with
      | none => .error (.invalidLength 1 "struct TableDefinition with 3 elements")
      | some v => Json.decodeString v
    let columns ← Json.decodeOr .empty Columns.decode items[2]?
    Json.checkLength 3 items
    return ⟨schema, name, columns⟩
  | v => .error (.invalidType v "struct TableDefinition")

/-! ## Writing -/

/-- A field that is left out when there is no value. -/
def Json.optionalField (key : String) : Option Json → List (String × Json)
  | none => []
  | some v => [(key, v)]

/-- The fields of a column. A missing one is left out. -/
def Column.toJson (c : Column) : Json :=
  Json.ofFields (("db_name", .string c.dbName) ::
    Json.optionalField "member_name" (c.memberName.map .string) ++
    [("pg_type", .string c.type.name), ("shape", .string c.shape.name)] ++
    Json.optionalField "position" (c.position.map fun p => .number (.int p)) ++
    [("nullable", .bool c.nullable)])

/-- The columns in order. -/
def Columns.toJson (cs : Columns) : Json := .array (cs.toList.map Column.toJson)

/-- The fields of a table. A missing schema is left out. -/
def Table.toJson (t : Table) : Json :=
  Json.ofFields (Json.optionalField "schema" (t.schema.map .string) ++
    [("name", .string t.name), ("columns", t.columns.toJson)])

/-! ## Loading -/

/-- Why a table could not be loaded. -/
inductive LoadError where
  | invalidTable (cause : DecodeError)
  | unreadableFile (path : String)
  | invalidJson (path : String)

/-- What is wrong, in words. -/
def LoadError.message : LoadError → String
  | .invalidTable cause => "InvalidMetadata: table definition is not valid: " ++ cause.message
  | .unreadableFile path => "InvalidMetadata: could not read file " ++ path
  | .invalidJson path => "InvalidMetadata: file " ++ path ++ " does not contain valid JSON"

/-- The table that a JSON value describes. -/
def Table.load (v : Json) : Except LoadError Table :=
  match Table.decode v with
  | .ok t => .ok t
  | .error e => .error (.invalidTable e)

/-- Containers that may be open at once in a table file. -/
def Table.fileNesting : Nat := 127

/-- The table that a file's bytes describe; no bytes when there is no such
file. -/
def Table.loadFile (path : String) (bytes : Option ByteArray) : Except LoadError Table :=
  match bytes.bind String.fromUTF8? with
  | none => .error (.unreadableFile path)
  | some text =>
    match Json.parse Table.fileNesting text with
    | none => .error (.invalidJson path)
    | some v => Table.load v

end ParamQuery
