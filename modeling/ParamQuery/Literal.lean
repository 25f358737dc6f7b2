/-
Constants of a query. They are always bound as parameters and never written
into SQL text; the texts here are for people (`display`, `debug`) and for
JSON.
-/
import ParamQuery.Json.Printer
import ParamQuery.Query.ValueType
import ParamQuery.Timestamp
import ParamQuery.Uuid

namespace ParamQuery

/-- A value that an expression or a filter has in it, and that becomes a
parameter. -/
inductive Literal where
  | null
  | bool (b : Bool)
  | int (n : Int64)
  | float (x : Binary64)
  | string (s : String)
  | uuid (u : Uuid)
  | timestamp (t : Timestamp)
  | json (v : Json)

/-- The text of a float for a reader: the fewest digits that read back, never
an exponent, no point after a whole number; a tie between two candidates goes
up. -/
def Binary64.display (x : Binary64) : String :=
  let minus := if x.isNegative then "-" else ""
  if x.isNaN then "NaN"
  else if x.isInfinite then minus ++ "inf"
  else if x.isZero then minus ++ "0"
  else minus ++ (x.shortest .up).positional false

namespace Literal

/-- Whether the value is missing. -/
def isNull : Literal → Bool
  | .null => true
  | _ => false

/-- A float literal; there is none for a NaN. -/
def ofFloat? (x : Binary64) : Option Literal := if x.isNaN then none else some (.float x)

/-- The type a value is bound as when nothing else is said. -/
def nativeType : Literal → Option ColumnType
  | .null => none
  | .bool _ => some .boolean
  | .int _ => some .bigInt
  | .float _ => some .double
  | .string _ => some .text
  | .uuid _ => some .uuid
  | .timestamp _ => some .timestampTz
  | .json _ => some .jsonb

/-- The type of the value in an expression. -/
def valueType (l : Literal) : ValueType :=
  match l.nativeType with
  | none => .unknown
  | some t => .ofColumnType t

/-- Whether 64 bits with a sign hold the integer. -/
def fitsInt64 (n : Int) : Bool := Int64.minValue.toInt ≤ n && n ≤ Int64.maxValue.toInt

/-- The literal for a JSON value; documents stay JSON. An integer that needs
all 64 bits of an unsigned word becomes the nearest float. -/
def ofJson : Json → Literal
  | .null => .null
  | .bool b => .bool b
  | .number (.int n) => if fitsInt64 n then .int (Int64.ofInt n) else .float (Binary64.ofInt n)
  | .number (.float x) => if x.isNaN then .null else .float x
  | .string s => .string s
  | .array items => .json (.array items)
  | .object fields => .json (.object fields)

/-- The JSON value of a literal; JSON has no number that is not finite. -/
def toJson : Literal → Json
  | .null => .null
  | .bool b => .bool b
  | .int n => .number (.int n.toInt)
  | .float x => if x.isFinite then .number (.float x) else .null
  | .string s => .string s
  | .uuid u => .string u.text
  | .timestamp t => .string t.text
  | .json v => v

/-- The value as a reader is shown it. -/
def display : Literal → String
  | .null => "NULL"
  | .bool b => if b then "true" else "false"
  | .int n => toString n.toInt
  | .float x => x.display
  | .string s => "\"" ++ s ++ "\""
  | .uuid u => u.text
  | .timestamp t => t.text
  | .json v => v.text

/-- The display with the kind of the literal around it. -/
def debug (l : Literal) : String :=
  match l with
  | .null => "Null"
  | .bool _ => "Bool(" ++ l.display ++ ")"
  | .int _ => "Int(" ++ l.display ++ ")"
  | .float _ => "Float(" ++ l.display ++ ")"
  | .string _ => "String(" ++ l.display ++ ")"
  | .uuid _ => "Uuid(" ++ l.display ++ ")"
  | .timestamp _ => "Timestamp(" ++ l.display ++ ")"
  | .json _ => "Json(" ++ l.display ++ ")"

/-- Equality of the values; floats compare as numbers. -/
def sameValue : Literal → Literal → Bool
  | .null, .null => true
  | .bool a, .bool b => a == b
  | .int m, .int n => m == n
  | .float x, .float y => x.numEq y
  | .string s, .string t => s == t
  | .uuid u, .uuid v => u == v
  | .timestamp s, .timestamp t => s == t
  | .json v, .json w => v.sameValue w
  | _, _ => false

end Literal

end ParamQuery
