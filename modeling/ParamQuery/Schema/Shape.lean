/-
What a column stores, as far as the form of its SQL depends on it.
-/
import ParamQuery.Json.Basic

namespace ParamQuery

/-- What a column stores. -/
inductive Shape where
  /-- Text, numbers, booleans, dates and the like. -/
  | scalar
  /-- A JSON document. -/
  | jsonObject
  /-- An array of JSON objects. -/
  | jsonArray
deriving DecidableEq

namespace Shape

/-- What the shape is called. -/
def name : Shape → String
  | .scalar => "Scalar"
  | .jsonObject => "JsonObject"
  | .jsonArray => "JsonArray"

/-- The shapes by name, in declaration order. -/
def byName : List (String × Shape) :=
  [.scalar, .jsonObject, .jsonArray].map fun s => (s.name, s)

/-- The shape of a sample. An array of objects is a JSON array, any other
array is a document like an object. -/
def ofValue : Json → Shape
  | .object _ => .jsonObject
  | .array items => if items.all Json.isObject then .jsonArray else .jsonObject
  | _ => .scalar

/-- Whether the values are documents or lists of them. -/
def isJson (s : Shape) : Bool := s != .scalar

/-- The shape after one more sample: the first that is not scalar stays. -/
def promote (seen next : Shape) : Shape := if seen = .scalar then next else seen

end Shape

end ParamQuery
