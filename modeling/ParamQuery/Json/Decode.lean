/-
Reading typed data out of JSON values. `DecodeError` names the reasons for
which a value is refused, and `DecodeError.message` is the only place that
words them.
-/
import ParamQuery.Json.Printer
import ParamQuery.Text.Quoted

namespace ParamQuery

/-- Why a JSON value is not what is asked for. -/
inductive DecodeError where
  /-- A value of another JSON type than the expected one. -/
  | invalidType (found : Json) (expected : String)
  /-- A value of the right JSON type that is out of range. -/
  | invalidValue (found : Json) (expected : String)
  | invalidLength (length : Nat) (expected : String)
  | missingField (name : String)
  | unknownVariant (name : String) (known : List String)
  | unknownColumnType (name : String)

/-- How a message refers to a value. -/
def Json.describe : Json → String
  | .null => "null"
  | .bool b => "boolean `" ++ (if b then "true" else "false") ++ "`"
  | .number (.int n) => "integer `" ++ toString n ++ "`"
  | .number (.float x) => "floating point `" ++ x.jsonText ++ "`"
  | .string s => "string " ++ Text.quoted s
  | .array _ => "sequence"
  | .object _ => "map"

namespace DecodeError

/-- A name as it stands in a message. -/
def inBackticks (s : String) : String := "`" ++ s ++ "`"

/-- The names that would have been known. -/
def alternatives (known : List String) : String :=
  match known with
  | [] => "there are no variants"
  | [a] => "expected " ++ inBackticks a
  | [a, b] => "expected " ++ inBackticks a ++ " or " ++ inBackticks b
  | names => "expected one of " ++ ", ".intercalate (names.map inBackticks)

/-- What is wrong, in words. -/
def message : DecodeError → String
  | .invalidType found expected => "invalid type: " ++ found.describe ++ ", expected " ++ expected
  | .invalidValue found expected => "invalid value: " ++ found.describe ++ ", expected " ++ expected
  | .invalidLength length expected => "invalid length " ++ toString length ++ ", expected " ++ expected
  | .missingField name => "missing field " ++ inBackticks name
  | .unknownVariant name known => "unknown variant " ++ inBackticks name ++ ", " ++ alternatives known
  | .unknownColumnType name => "unknown PostgreSQL type '" ++ name ++ "'"

end DecodeError

namespace Json

/-- A reader of one kind of data. -/
abbrev Decoder (α : Type) := Json → Except DecodeError α

/-- A text. -/
def decodeString : Decoder String
  | .string s => .ok s
  | v => .error (.invalidType v "a string")

/-- A truth value. -/
def decodeBool : Decoder Bool
  | .bool b => .ok b
  | v => .error (.invalidType v "a boolean")

/-- A number that is not negative. -/
def decodeNat : Decoder Nat
  | .number (.int n) =>
    if 0 ≤ n then .ok n.toNat else .error (.invalidValue (.number (.int n)) "usize")
  | v => .error (.invalidType v "usize")

/-- A list, one item after another. -/
def decodeList {α : Type} (item : Decoder α) : Decoder (List α)
  | .array items => items.mapM item
  | v => .error (.invalidType v "a sequence")

/-- A value that may be absent: `null` stands for none. -/
def decodeOption {α : Type} (item : Decoder α) : Decoder (Option α)
  | .null => .ok none
  | v => some <$> item v

/-- One of several names, given as a string or as the key of a field that
holds `null`. -/
def decodeVariant {α : Type} (byName : List (String × α)) : Decoder α
  | .string s => lookup s
  | .object [(key, payload)] => do
    let a ← lookup key
    match payload with
    | .null => .ok a
    | v => .error (.invalidType v "unit")
  | .object fields => .error (.invalidValue (.object fields) "map with a single key")
  | v => .error (.invalidType v "string or map")
where
  lookup (s : String) : Except DecodeError α :=
    match byName.find? (·.1 == s) with
    | some (_, a) => .ok a
    | none => .error (.unknownVariant s (byName.map (·.1)))

/-- A field that may be missing. -/
def decodeOr {α : Type} (default : α) (item : Decoder α) : Option Json → Except DecodeError α
  | none => .ok default
  | some v => item v

/-- Refuse elements behind the last field of a record. -/
def checkLength (fields : Nat) (items : List Json) : Except DecodeError Unit :=
  if fields < items.length then .error (.invalidLength items.length "fewer elements in array")
  else .ok ()

end Json

end ParamQuery
