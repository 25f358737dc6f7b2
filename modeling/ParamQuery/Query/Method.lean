/-
The methods that a query can call on values, what they accept and what they
give.
-/
import ParamQuery.Query.ValueType

namespace ParamQuery

/-- The methods that an expression may call. -/
inductive Method where
  | equals
  | toLower
  | toUpper
  | reverse
  | length
  | concat
  | substring
  | replace
  | trim
  | trimStart
  | trimEnd
  | contains
  | startsWith
  | endsWith
deriving DecidableEq

namespace Method

/-- What the method is called. -/
def name : Method → String
  | .equals => "Equals"
  | .toLower => "ToLower"
  | .toUpper => "ToUpper"
  | .reverse => "Reverse"
  | .length => "Length"
  | .concat => "Concat"
  | .substring => "Substring"
  | .replace => "Replace"
  | .trim => "Trim"
  | .trimStart => "TrimStart"
  | .trimEnd => "TrimEnd"
  | .contains => "Contains"
  | .startsWith => "StartsWith"
  | .endsWith => "EndsWith"

/-- All methods. -/
def all : List Method :=
  [.equals, .toLower, .toUpper, .reverse, .length, .concat, .substring, .replace, .trim,
    .trimStart, .trimEnd, .contains, .startsWith, .endsWith]

/-- The method with the given name, without regard to case and underscores. -/
def ofName? (s : String) : Option Method :=
  let key := (String.ofList (s.toList.filter (· != '_'))).toLower
  all.find? (·.name.toLower == key)

/-- Whether the method is called on a value. -/
def hasReceiver (m : Method) : Bool := m != .concat

/-- Whether the arguments are values like the receiver, and not positions or
counts. -/
def comparesWithReceiver : Method → Bool
  | .equals | .contains | .startsWith | .endsWith | .replace | .trim | .trimStart | .trimEnd => true
  | _ => false

/-- Whether the result is the receiver's text in another form. -/
def transformsReceiver : Method → Bool
  | .toLower | .toUpper | .reverse | .substring | .replace | .trim | .trimStart | .trimEnd => true
  | _ => false

/-- Whether the call is a predicate, written with a comparison. -/
def isPredicate : Method → Bool
  | .equals | .contains | .startsWith | .endsWith => true
  | _ => false

/-- The fewest arguments beside the receiver. -/
def minArguments : Method → Nat
  | .toLower | .toUpper | .reverse | .length | .trim | .trimStart | .trimEnd => 0
  | .equals | .contains | .startsWith | .endsWith | .concat | .substring => 1
  | .replace => 2

/-- The most arguments beside the receiver, `none` without a limit. -/
def maxArguments : Method → Option Nat
  | .toLower | .toUpper | .reverse | .length => some 0
  | .equals | .contains | .startsWith | .endsWith | .trim | .trimStart | .trimEnd => some 1
  | .substring | .replace => some 2
  | .concat => none

/-- Whether the method can be called with that many arguments. -/
def accepts (m : Method) (arguments : Nat) : Bool :=
  m.minArguments ≤ arguments && match m.maxArguments with
    | none => true
    | some most => arguments ≤ most

/-- The type of what the method gives. -/
def valueType : Method → ValueType
  | .equals | .contains | .startsWith | .endsWith => .boolean
  | .length => .integer
  | _ => .text

end Method

end ParamQuery
