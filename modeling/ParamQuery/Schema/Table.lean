/-
Tables: a name, the schema it lives in, and its columns in order. A table is
what a compilation knows of the database.
-/
import ParamQuery.Schema.Column

namespace ParamQuery

/-- A table of the database and its columns. -/
structure Table where
  schema : Option String := none
  name : String := ""
  columns : Columns := .empty
deriving DecidableEq

namespace Table

/-- The first column with the given name in the database. -/
def columnByName? (t : Table) (name : String) : Option Column :=
  t.columns.toList.find? (·.dbName == name)

/-- The column that an expression means by `member`: the member names are
searched first, then the names in the database. -/
def columnByMember? (t : Table) (member : String) : Option Column :=
  (t.columns.toList.find? (·.memberName == some member)).or (t.columnByName? member)

/-- Add a column, unless one with its name is there. -/
def addColumn? (t : Table) (c : Column) : Option Table :=
  if (t.columnByName? c.dbName).isSome then none
  else some { t with columns := t.columns.add c }

/-- Add a column; one with a name that is there is left out. -/
def withColumn (t : Table) (c : Column) : Table := (t.addColumn? c).getD t

/-- The type of a column that stores values like the sample. -/
def inferType (sample : Json) : ColumnType :=
  match Shape.ofValue sample, sample with
  | .jsonArray, _ => .jsonbArray
  | .jsonObject, _ => .jsonb
  | .scalar, .bool _ => .boolean
  | .scalar, .number (.int _) => .bigInt
  | .scalar, .number (.float _) => .double
  | .scalar, _ => .text

/-- A table with a column for each field of a sample document. -/
def infer (name : String) (fields : List (String × Json)) : Table :=
  fields.foldl (fun t (key, sample) =>
    t.withColumn { dbName := key, type := inferType sample, shape := Shape.ofValue sample })
    { name := name }

end Table

end ParamQuery
