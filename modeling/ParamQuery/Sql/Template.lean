/-
SQL templates of method calls. A slot is an open brace, decimal digits and a
close brace; it is replaced by the fragment with that number, all slots at
once, and by nothing when there is no such fragment.

The digits may be of any script, but only ASCII digits of a number below
`2 ^ 64` denote a fragment.
-/
import ParamQuery.Query.Method
import ParamQuery.Text.DecimalDigit

namespace ParamQuery.Sql

/-- The text of a template, with its slots. -/
structure Template where
  source : String
deriving DecidableEq

/-- A part of a template. -/
inductive TemplatePart where
  | text (cs : List Char)
  | slot (index : Option Nat)
deriving DecidableEq

namespace Template

/-- No fragment has this number or a larger one: `2 ^ 64`. -/
def indexBound : Nat := 0x10000000000000000

/-- The fragment number that the digits of a slot denote. -/
def slotIndex (digits : List Char) : Option Nat :=
  if digits.all Char.isDigit then
    let n := digits.foldl (fun acc c => 10 * acc + (c.toNat - '0'.toNat)) 0
    if n < indexBound then some n else none
  else none

/-- Put a character in front of the text that follows it. -/
def consChar (c : Char) : List TemplatePart → List TemplatePart
  | .text cs :: rest => .text (c :: cs) :: rest
  | parts => .text [c] :: parts

/-- The digits of a slot at the start of the characters. -/
def slotDigits? : List Char → Option (List Char)
  | '\x7b' :: rest =>
    let digits := rest.takeWhile Text.isDecimalDigit
    if !digits.isEmpty && (rest.drop digits.length).head? == some '\x7d' then some digits else none
  | _ => none

/-- The parts of the characters behind the next `skip` ones, which belong to a
slot already found. -/
def partsFrom : Nat → List Char → List TemplatePart
  | _, [] => []
  | skip + 1, _ :: rest => partsFrom skip rest
  | 0, c :: rest =>
    match slotDigits? (c :: rest) with
    | some digits => .slot (slotIndex digits) :: partsFrom (digits.length + 1) rest
    | none => consChar c (partsFrom 0 rest)

/-- The parts of the template, in order. -/
def parts (t : Template) : List TemplatePart := partsFrom 0 t.source.toList

/-- How many fragments there have to be for a part: one more than the index of a
slot. The sum has 64 bits and wraps to 0 at the last index; a build with overflow
checks stops there. -/
def reach : TemplatePart → Nat
  | .slot (some i) => if i + 1 < indexBound then i + 1 else 0
  | _ => 0

/-- How many fragments the template can use. -/
def slotCount (t : Template) : Nat := t.parts.foldl (fun n p => max n (reach p)) 0

/-- The template with its slots replaced, `text` giving what stands between
them. -/
def expand {α : Type} (t : Template) (text : List Char → List α) (fragments : List (List α)) : List α :=
  t.parts.flatMap fun p => match p with
    | .text cs => text cs
    | .slot none => []
    | .slot (some i) => fragments.getD i []

/-- The template with its slots replaced by texts. -/
def render (t : Template) (fragments : List String) : String :=
  String.ofList (t.expand id (fragments.map String.toList))

end Template

/-- The template of a call with the given number of arguments. The receiver
is fragment 0, or the list of arguments of a method without a receiver. -/
def Template.ofMethod (m : Method) (arguments : Nat) : Template :=
  match m with
  | .equals => ⟨"\x7b0\x7d = \x7b1\x7d"⟩
  | .toLower => ⟨"LOWER(\x7b0\x7d)"⟩
  | .toUpper => ⟨"UPPER(\x7b0\x7d)"⟩
  | .reverse => ⟨"REVERSE(\x7b0\x7d)"⟩
  | .length => ⟨"LENGTH(\x7b0\x7d)"⟩
  | .concat => ⟨"CONCAT(\x7b0\x7d)"⟩
  | .substring =>
    if 1 < arguments then ⟨"SUBSTRING(\x7b0\x7d FROM \x7b1\x7d+1 FOR \x7b2\x7d)"⟩
    else ⟨"SUBSTRING(\x7b0\x7d FROM \x7b1\x7d+1)"⟩
  | .replace => ⟨"REPLACE(\x7b0\x7d, \x7b1\x7d, \x7b2\x7d)"⟩
  | .trim => ⟨"TRIM(both \x7b1\x7d from \x7b0\x7d)"⟩
  | .trimStart => ⟨"TRIM(leading \x7b1\x7d from \x7b0\x7d)"⟩
  | .trimEnd => ⟨"TRIM(trailing \x7b1\x7d from \x7b0\x7d)"⟩
  | .contains => ⟨"\x7b0\x7d LIKE '%' || \x7b1\x7d || '%'"⟩
  | .startsWith => ⟨"\x7b0\x7d LIKE \x7b1\x7d || '%'"⟩
  | .endsWith => ⟨"\x7b0\x7d LIKE '%' || \x7b1\x7d"⟩

end ParamQuery.Sql
