/-
The type of an expression as it is known before the query runs. It decides
whether an addition is a sum or a concatenation.
-/
import ParamQuery.Schema.ColumnType

namespace ParamQuery

/-- What is known about the type of an expression. -/
inductive ValueType where
  | text
  | integer
  | float
  | boolean
  | uuid
  | timestamp
  | json
  | unknown
deriving DecidableEq

namespace ValueType

/-- What the type is called. -/
def name : ValueType → String
  | .text => "Text"
  | .integer => "Integer"
  | .float => "Float"
  | .boolean => "Boolean"
  | .uuid => "Uuid"
  | .timestamp => "Timestamp"
  | .json => "Json"
  | .unknown => "Unknown"

/-- All types. -/
def all : List ValueType :=
  [.text, .integer, .float, .boolean, .uuid, .timestamp, .json, .unknown]

/-- The type of that name. -/
def ofName? (s : String) : Option ValueType := all.find? (·.name == s)

/-- The type of a column's values. -/
def ofColumnType : ColumnType → ValueType
  | .text | .varchar => .text
  | .smallInt | .integer | .bigInt => .integer
  | .real | .double | .numeric => .float
  | .boolean => .boolean
  | .uuid => .uuid
  | .timestamp | .timestampTz | .date => .timestamp
  | .json | .jsonb | .jsonbArray | .textArray => .json

/-- Whether the values are texts. -/
def isText (t : ValueType) : Bool := t == .text

/-- Whether the values are numbers. -/
def isNumeric (t : ValueType) : Bool := t == .integer || t == .float

end ValueType

end ParamQuery
