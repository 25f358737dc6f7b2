/-
Dotted column paths. The first segment names a column, the others lead into
its JSON content. How a path is addressed depends on the shape of the column:
a path into an array of objects holds of some element.
-/
import ParamQuery.Schema.Table
import ParamQuery.Sql.Token

namespace ParamQuery

/-- The segments of a dotted path, empty ones left out. -/
def pathSegments (path : String) : List String :=
  (splitDots path.toList).filter (!·.isEmpty)
where
  /-- The texts between the dots. -/
  splitDots : List Char → List String
    | [] => [""]
    | c :: rest =>
      match splitDots rest with
      | [] => [""]
      | s :: more => if c = '.' then "" :: s :: more else (c.toString ++ s) :: more

/-- A path of a filter. -/
structure ColumnPath where
  segments : List String
deriving DecidableEq

/-- The left-hand side of a condition. -/
structure PathTarget where
  operand : Sql.Fragment String
  /-- The array column whose elements the condition runs over. -/
  unnest : Option (Sql.Fragment String) := none
  /-- Whether the operand is text out of a JSON document. -/
  jsonText : Bool := false

/-- The predicate that a condition on the target makes. -/
def PathTarget.predicate (t : PathTarget) (condition : Sql.Fragment String) : Sql.Fragment String :=
  match t.unnest with
  | none => t.operand ++ Sql.Token.text " " :: condition
  | some column =>
    Sql.Token.text "exists (Select 1 from unnest(" :: column ++ Sql.Token.text ") as objects where " :: t.operand ++
      Sql.Token.text " " :: condition ++ [Sql.Token.text ")"]

namespace ColumnPath

/-- The path that a text denotes. -/
def parse (path : String) : ColumnPath := ⟨pathSegments path⟩

/-- The segment that names the column. -/
def base (p : ColumnPath) : String := p.segments.headD ""

/-- Whether the path leads into a column. -/
def isNested (p : ColumnPath) : Bool := 1 < p.segments.length

/-- The path with a dot between its segments. -/
def text (p : ColumnPath) : String := ".".intercalate p.segments

/-- The target of the path, qualified by a table if one is given. Only the
columns of the described table are looked up; those of another table are
named as they are and count as scalar. -/
def resolve (p : ColumnPath) (table : Table) (qualifier : Option String) : PathTarget :=
  let foreign := match qualifier with
    | none => false
    | some t => t != table.name
  let (name, shape) := match if foreign then none else table.columnByMember? p.base with
    | some c => (c.dbName, c.shape)
    | none => (p.base, .scalar)
  let column : Sql.Fragment String := match qualifier with
    | none => [.name name]
    | some t => Sql.Fragment.qualified t name
  let steps := Sql.Fragment.traversal (p.segments.drop 1)
  match shape, p.isNested with
  | .jsonArray, true => { operand := .text "objects" :: steps, unnest := some column, jsonText := true }
  | .jsonObject, true => { operand := column ++ steps, jsonText := true }
  | _, _ => { operand := column }

end ColumnPath

end ParamQuery
