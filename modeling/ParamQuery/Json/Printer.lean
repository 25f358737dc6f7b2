/-
Compact JSON text. Strings escape the quote, the backslash and control
characters only. A float is written with the fewest digits that read back,
positionally when its leading digit stands for `10 ^ -5` to `10 ^ 15`, and
always with a point or an exponent, so that it is read back as a float.
-/
import ParamQuery.Json.Basic
import ParamQuery.Number.Shortest

namespace ParamQuery

/-- A float as a JSON number; JSON has no text for what is not finite. -/
def Binary64.jsonText (x : Binary64) : String :=
  let minus := if x.isNegative then "-" else ""
  if !x.isFinite then "null"
  else if x.isZero then minus ++ "0.0"
  else
    let d := x.shortest .toEven
    minus ++ if -5 ≤ d.exponent ∧ d.exponent ≤ 15 then d.positional true else d.scientific

namespace Json

/-- A character inside a JSON string. -/
def escapeChar (c : Char) : List Char :=
  match c with
  | '"' => ['\\', '"']
  | '\\' => ['\\', '\\']
  | '\x08' => ['\\', 'b']
  | '\t' => ['\\', 't']
  | '\n' => ['\\', 'n']
  | '\x0c' => ['\\', 'f']
  | '\r' => ['\\', 'r']
  | c =>
    if c.toNat < 0x20 then
      let ds := Nat.toDigits 16 c.toNat
      ['\\', 'u'] ++ List.replicate (4 - ds.length) '0' ++ ds
    else [c]

/-- A text as a JSON string. -/
def quote (s : String) : String := String.ofList ('"' :: s.toList.flatMap escapeChar ++ ['"'])

mutual
/-- Compact JSON text. -/
def text : Json → String
  | .null => "null"
  | .bool b => if b then "true" else "false"
  | .number (.int n) => toString n
  | .number (.float x) => x.jsonText
  | .string s => quote s
  | .array items => "[" ++ ",".intercalate (itemTexts items) ++ "]"
  | .object fields => "\x7b" ++ ",".intercalate (fieldTexts fields) ++ "\x7d"
/-- The texts of the items of an array. -/
def itemTexts : List Json → List String
  | [] => []
  | v :: rest => v.text :: itemTexts rest
/-- The texts of the fields of an object. -/
def fieldTexts : List (String × Json) → List String
  | [] => []
  | (k, v) :: rest => (quote k ++ ":" ++ v.text) :: fieldTexts rest
end

end Json

end ParamQuery
