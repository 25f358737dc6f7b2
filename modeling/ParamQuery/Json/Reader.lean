/-
Reading JSON text. The grammar is the strict one: no comments, no trailing
commas, no byte order mark, no control characters in strings, surrogate
escapes only in pairs. A number without fraction and exponent is an integer
if 64 bits hold it (`-0` is a float). Of any other number the leading digits
that 64 bits hold are scaled by a power of ten in floating point; it is
refused when that is infinite.

`Json.parse` takes the number of containers that may be open at once; the
recursion is on it, and the list loops are bounded by the text's length.
-/
import ParamQuery.Json.Basic
import ParamQuery.Number.Scaled

namespace ParamQuery.Json.Reader

/-- The characters that may stand between the parts of a value. -/
def isSpace (c : Char) : Bool := c == ' ' || c == '\t' || c == '\n' || c == '\r'

/-- What is behind the space that comes first. -/
def skipSpace (cs : List Char) : List Char := cs.dropWhile isSpace

/-! ## Strings -/

/-- The value of a hexadecimal digit. -/
def hexDigit? (c : Char) : Option Nat :=
  if '0' ≤ c ∧ c ≤ '9' then some (c.toNat - '0'.toNat)
  else if 'a' ≤ c ∧ c ≤ 'f' then some (c.toNat - 'a'.toNat + 10)
  else if 'A' ≤ c ∧ c ≤ 'F' then some (c.toNat - 'A'.toNat + 10)
  else none

/-- The number that hexadecimal digits denote. -/
def hexNumber? (cs : List Char) : Option Nat :=
  cs.foldlM (fun acc c => (hexDigit? c).map (16 * acc + ·)) 0

/-- The character behind a backslash that is not followed by `u`. -/
def escape? : Char → Option Char
  | '"' => some '"'
  | '\\' => some '\\'
  | '/' => some '/'
  | 'b' => some '\x08'
  | 'f' => some '\x0c'
  | 'n' => some '\n'
  | 'r' => some '\r'
  | 't' => some '\t'
  | _ => none

/-- Whether a unit is the first one of a pair. -/
def isHighSurrogate (u : Nat) : Bool := 0xD800 ≤ u && u < 0xDC00

/-- Whether a unit is the second one of a pair. -/
def isLowSurrogate (u : Nat) : Bool := 0xDC00 ≤ u && u < 0xE000

/-- Add a character to what a string's rest gives. -/
def consChar (c : Char) : Option (List Char × List Char) → Option (List Char × List Char)
  | some (s, rest) => some (c :: s, rest)
  | none => none

/-- The characters up to the closing quote, and what follows it. -/
def stringBody : List Char → Option (List Char × List Char)
  | [] => none
  | '"' :: rest => some ([], rest)
  | '\\' :: 'u' :: a :: b :: c :: d :: rest =>
    match hexNumber? [a, b, c, d] with
    | none => none
    | some u =>
      if isLowSurrogate u then none
      else if isHighSurrogate u then
        match rest with
        | '\\' :: 'u' :: e :: f :: g :: h :: rest' =>
          match hexNumber? [e, f, g, h] with
          | none => none
          | some v =>
            if isLowSurrogate v then
              consChar (Char.ofNat (0x10000 + (u - 0xD800) * 0x400 + (v - 0xDC00))) (stringBody rest')
            else none
        | _ => none
      else consChar (Char.ofNat u) (stringBody rest)
  | '\\' :: c :: rest =>
    match escape? c with
    | some e => consChar e (stringBody rest)
    | none => none
  | c :: rest => if c.toNat < 0x20 then none else consChar c (stringBody rest)

/-! ## Numbers -/

/-- The number that decimal digits denote. -/
def decimalNumber (cs : List Char) : Nat :=
  cs.foldl (fun acc c => 10 * acc + (c.toNat - '0'.toNat)) 0

/-- A sign, for the exponent. -/
def sign : List Char → Bool × List Char
  | '-' :: rest => (true, rest)
  | '+' :: rest => (false, rest)
  | cs => (false, cs)

/-- The fraction digits behind a point, if there is a point. -/
def fractionPart : List Char → Option (Option (List Char) × List Char)
  | '.' :: rest =>
    let ds := rest.takeWhile Char.isDigit
    if ds.isEmpty then none else some (some ds, rest.dropWhile Char.isDigit)
  | cs => some (none, cs)

/-- The exponent behind `e` or `E`, if there is one. -/
def exponentPart : List Char → Option (Option Int × List Char)
  | c :: rest =>
    if c = 'e' ∨ c = 'E' then
      let (negative, rest) := sign rest
      let ds := rest.takeWhile Char.isDigit
      if ds.isEmpty then none
      else
        let n : Int := decimalNumber ds
        some (some (if negative then -n else n), rest.dropWhile Char.isDigit)
    else some (none, c :: rest)
  | [] => some (none, [])

/-- The significand with digits behind it, up to the first digit that does not
fit in 64 bits, and the digits from there on. -/
def extend (significand : Nat) : List Char → Nat × List Char
  | [] => (significand, [])
  | c :: rest =>
    let longer := 10 * significand + (c.toNat - '0'.toNat)
    if longer < 0x10000000000000000 then extend longer rest else (significand, c :: rest)

/-- A float, unless it is too large for one. Digits of the whole part that do
not fit count as zeros, those of the fraction are dropped. -/
def float? (negative : Bool) (whole fraction : List Char) (exponent : Int) : Option JsonNumber :=
  let (significand, zeros) := extend 0 whole
  let (significand, dropped) := extend significand fraction
  let places : Int := fraction.length - dropped.length
  let x := Binary64.scaled negative significand (exponent + zeros.length - places)
  if x.isFinite then some (.float x) else none

/-- The number that the parts of a number token denote. -/
def numberOf? (negative : Bool) (whole : List Char) (fraction : Option (List Char))
    (exponent : Option Int) : Option JsonNumber :=
  match fraction, exponent with
  | none, none =>
    let n := decimalNumber whole
    if negative then
      if 0 < n ∧ n ≤ 0x8000000000000000 then some (.int (-n)) else float? true whole [] 0
    else if n < 0x10000000000000000 then some (.int n)
    else float? false whole [] 0
  | _, _ => float? negative whole (fraction.getD []) (exponent.getD 0)

/-- A number at the start of the text. -/
def number (cs : List Char) : Option (JsonNumber × List Char) :=
  let (negative, cs) := match cs with
    | '-' :: rest => (true, rest)
    | _ => (false, cs)
  let whole := cs.takeWhile Char.isDigit
  if whole.isEmpty || (whole.length > 1 && whole.head? == some '0') then none
  else do
    let (fraction, cs) ← fractionPart (cs.dropWhile Char.isDigit)
    let (exponent, cs) ← exponentPart cs
    let n ← numberOf? negative whole fraction exponent
    return (n, cs)

/-! ## Values -/

/-- The items up to the closing bracket, at least one, separated by commas. -/
def items {α : Type} (item : List Char → Option (α × List Char)) (close : Char) :
    Nat → List Char → Option (List α × List Char)
  | 0, _ => none
  | n + 1, cs => do
    let (x, rest) ← item cs
    match skipSpace rest with
    | [] => none
    | c :: rest =>
      if c = ',' then
        let (xs, rest) ← items item close n rest
        return (x :: xs, rest)
      else if c = close then return ([x], rest)
      else none

/-- The contents of a container whose opening bracket has been read. -/
def container {α : Type} (item : List Char → Option (α × List Char)) (close : Char)
    (cs : List Char) : Option (List α × List Char) :=
  match skipSpace cs with
  | [] => none
  | c :: rest => if c = close then some ([], rest) else items item close cs.length cs

/-- A field of an object. -/
def entry (value : List Char → Option (Json × List Char)) (cs : List Char) :
    Option ((String × Json) × List Char) :=
  match skipSpace cs with
  | '"' :: rest => do
    let (key, rest) ← stringBody rest
    match skipSpace rest with
    | ':' :: rest =>
      let (v, rest) ← value rest
      return ((String.ofList key, v), rest)
    | _ => none
  | _ => none

/-- A word at the start of the text stands for `v`. -/
def word (w : List Char) (v : Json) (cs : List Char) : Option (Json × List Char) :=
  if w.isPrefixOf cs then some (v, cs.drop w.length) else none

/-- A value at the start of the text, with at most `limit` containers in
each other. -/
def value : Nat → List Char → Option (Json × List Char)
  | limit, cs =>
    match skipSpace cs with
    | [] => none
    | '"' :: rest => (stringBody rest).map fun (s, r) => (.string (String.ofList s), r)
    | '[' :: rest =>
      match limit with
      | 0 => none
      | n + 1 => (container (value n) ']' rest).map fun (xs, r) => (.array xs, r)
    | '\x7b' :: rest =>
      match limit with
      | 0 => none
      | n + 1 => (container (entry (value n)) '\x7d' rest).map fun (fs, r) => (ofFields fs, r)
    | 'n' :: rest => word "ull".toList .null rest
    | 't' :: rest => word "rue".toList (.bool true) rest
    | 'f' :: rest => word "alse".toList (.bool false) rest
    | c :: rest => (number (c :: rest)).map fun (n, r) => (.number n, r)

end ParamQuery.Json.Reader

namespace ParamQuery

/-- The value that a whole text denotes, `none` for text that is not JSON or
that nests more than `limit` containers. -/
def Json.parse (limit : Nat) (text : String) : Option Json :=
  match Json.Reader.value limit text.toList with
  | some (v, rest) => if (Json.Reader.skipSpace rest).isEmpty then some v else none
  | none => none

end ParamQuery
