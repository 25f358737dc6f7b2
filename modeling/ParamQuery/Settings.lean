/-
The settings of a compilation: how parameters are named, and whether a member
that no column matches is an error.
-/
import ParamQuery.Json.Decode

namespace ParamQuery

/-- How the parameters of a statement are bound. -/
inductive ParameterStyle where
  /-- Bound by name: `@p0`, `@p1`, … -/
  | named
  /-- Bound by position: `$1`, `$2`, … -/
  | positional
deriving DecidableEq

/-- What the style is called. -/
def ParameterStyle.name : ParameterStyle → String
  | .named => "Named"
  | .positional => "Positional"

/-- The styles by name, in declaration order. -/
def ParameterStyle.byName : List (String × ParameterStyle) :=
  [.named, .positional].map fun s => (s.name, s)

/-- What can be chosen about a compilation: how parameters are written, and
whether a member has to be a column. -/
structure Settings where
  style : ParameterStyle := .named
  /-- What a named parameter's number stands behind. -/
  stem : String := "p"
  strict : Bool := false
deriving DecidableEq

namespace Settings

/-- Settings from their fields, or from a list of them. What is missing has its
default. -/
def decode : Json.Decoder Settings
  | .object fields => do
    let field (key : String) : Option Json := Json.get? key (.object fields)
    let stem ← Json.decodeOr "p" Json.decodeString (field "parameter_prefix")
    let style ← Json.decodeOr .named (Json.decodeVariant ParameterStyle.byName) (field "parameter_style")
    let strict ← Json.decodeOr false Json.decodeBool (field "strict_member_resolution")
    return ⟨style, stem, strict⟩
  | .array items => do
    let style ← Json.decodeOr .named (Json.decodeVariant ParameterStyle.byName) items[0]?
    let stem ← Json.decodeOr "p" Json.decodeString items[1]?
    let strict ← Json.decodeOr false Json.decodeBool items[2]?
    Json.checkLength 3 items
    return ⟨style, stem, strict⟩
  | v => .error (.invalidType v "struct CompilerConfig")

/-- The settings with all of their fields. -/
def toJson (s : Settings) : Json :=
  Json.ofFields [("parameter_style", .string s.style.name), ("parameter_prefix", .string s.stem),
    ("strict_member_resolution", .bool s.strict)]

end Settings

end ParamQuery
