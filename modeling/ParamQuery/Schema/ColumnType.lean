/-
The PostgreSQL types that values are bound as, with their names. A name is
looked up without regard to case and to blanks around it, and the usual
aliases are known.
-/
import ParamQuery.Schema.Shape
import ParamQuery.Text.Blank

namespace ParamQuery

/-- The types that a column has in the database. -/
inductive ColumnType where
  | text
  | varchar
  | smallInt
  | integer
  | bigInt
  | real
  | double
  | numeric
  | boolean
  | uuid
  | timestamp
  | timestampTz
  | date
  | json
  | jsonb
  | jsonbArray
  | textArray
deriving DecidableEq

namespace ColumnType

/-- The canonical name. -/
def name : ColumnType → String
  | .text => "text"
  | .varchar => "varchar"
  | .smallInt => "smallint"
  | .integer => "integer"
  | .bigInt => "bigint"
  | .real => "real"
  | .double => "double precision"
  | .numeric => "numeric"
  | .boolean => "boolean"
  | .uuid => "uuid"
  | .timestamp => "timestamp"
  | .timestampTz => "timestamptz"
  | .date => "date"
  | .json => "json"
  | .jsonb => "jsonb"
  | .jsonbArray => "jsonb[]"
  | .textArray => "text[]"

/-- All types. -/
def all : List ColumnType :=
  [.text, .varchar, .smallInt, .integer, .bigInt, .real, .double, .numeric, .boolean, .uuid,
    .timestamp, .timestampTz, .date, .json, .jsonb, .jsonbArray, .textArray]

/-- Names besides the canonical ones. -/
def aliases : List (String × ColumnType) :=
  [("character varying", .varchar), ("int2", .smallInt), ("int", .integer), ("int4", .integer),
    ("int8", .bigInt), ("float4", .real), ("float8", .double), ("decimal", .numeric),
    ("bool", .boolean), ("timestamp without time zone", .timestamp),
    ("timestamp with time zone", .timestampTz), ("_jsonb", .jsonbArray), ("_text", .textArray)]

/-- The type with the given name or alias. -/
def ofName? (s : String) : Option ColumnType :=
  let key := (Text.trimBlanks s).toLower
  (all.find? (·.name == key)).or ((aliases.find? (·.1 == key)).map (·.2))

/-- What a column of the type stores. -/
def shape : ColumnType → Shape
  | .json | .jsonb => .jsonObject
  | .jsonbArray => .jsonArray
  | _ => .scalar

/-- Whether the values are texts. -/
def isTextual : ColumnType → Bool
  | .text | .varchar => true
  | _ => false

/-- Whether the values are numbers. -/
def isNumeric : ColumnType → Bool
  | .smallInt | .integer | .bigInt | .real | .double | .numeric => true
  | _ => false

end ColumnType

end ParamQuery
