/-
JSON values. A number keeps whether it was written as an integer or as a
float: the two never compare equal. The fields of an object stand in
ascending order of their keys, each key once; `Json.ofFields` brings them
into that form and lets the last of several equal keys win.
-/
import ParamQuery.Number.Binary64

namespace ParamQuery

/-- A number of a JSON text: an integer, or one with a fraction or an exponent. -/
inductive JsonNumber where
  | int (n : Int)
  | float (x : Binary64)
deriving DecidableEq

/-- A JSON value. The fields of an object are in the order of their keys. -/
inductive Json where
  | null
  | bool (b : Bool)
  | number (n : JsonNumber)
  | string (s : String)
  | array (items : List Json)
  | object (fields : List (String × Json))

/-- Equality of numbers of one kind; floats compare as numbers. -/
def JsonNumber.sameValue : JsonNumber → JsonNumber → Bool
  | .int m, .int n => m == n
  | .float x, .float y => x.numEq y
  | _, _ => false

namespace Json

/-! ## Equality -/

mutual
/-- Structural equality, with numbers compared by `JsonNumber.sameValue`. -/
def sameValue : Json → Json → Bool
  | .null, .null => true
  | .bool a, .bool b => a == b
  | .number m, .number n => m.sameValue n
  | .string s, .string t => s == t
  | .array xs, .array ys => sameItems xs ys
  | .object xs, .object ys => sameFields xs ys
  | _, _ => false
/-- Values that are the same one by one. -/
def sameItems : List Json → List Json → Bool
  | [], [] => true
  | x :: xs, y :: ys => sameValue x y && sameItems xs ys
  | _, _ => false
/-- Fields that are the same one by one, with their keys. -/
def sameFields : List (String × Json) → List (String × Json) → Bool
  | [], [] => true
  | (k, x) :: xs, (l, y) :: ys => k == l && sameValue x y && sameFields xs ys
  | _, _ => false
end

/-! ## Objects -/

/-- Set a field, keeping the keys in ascending order. -/
def setField (key : String) (value : Json) : List (String × Json) → List (String × Json)
  | [] => [(key, value)]
  | (k, v) :: rest =>
    if key = k then (key, value) :: rest
    else if key < k then (key, value) :: (k, v) :: rest
    else (k, v) :: setField key value rest

/-- The object with the given fields, in any order. -/
def ofFields (fields : List (String × Json)) : Json :=
  .object (fields.foldl (fun acc f => setField f.1 f.2 acc) [])

/-- The value under `key`. -/
def get? (key : String) : Json → Option Json
  | .object fields => (fields.find? (·.1 == key)).map (·.2)
  | _ => none

/-- Whether the value is an object. -/
def isObject : Json → Bool
  | .object _ => true
  | _ => false

end Json

end ParamQuery
