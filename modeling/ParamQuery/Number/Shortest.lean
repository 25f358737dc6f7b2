/-
The shortest decimal that reads back as a given double.

The decimals that round to a number form an interval around it, closed when
the significand is even. `Binary64.shortest` looks at the grids of 1, 2, …, 17
significant digits and takes the first one that has a point in the interval;
of two such points it takes the nearer, and `Tie` settles a draw.
-/
import ParamQuery.Number.Binary64

namespace ParamQuery

/-- What becomes of a number halfway between two candidates. -/
inductive Tie where
  | toEven
  | up
deriving DecidableEq

/-- The decimal `d₁.d₂d₃… * 10 ^ exponent`, digits most significant first. -/
structure Decimal where
  digits : List Char
  exponent : Int
deriving DecidableEq

namespace Decimal

/-- The decimal `coefficient * 10 ^ power` without trailing zeros. -/
def ofGrid (coefficient : Nat) (power : Int) : Decimal :=
  let ds := Nat.toDigits 10 coefficient
  ⟨(ds.reverse.dropWhile (· == '0')).reverse, power + ds.length - 1⟩

/-- Positional notation. `pointZero` writes `.0` after a whole number. -/
def positional (d : Decimal) (pointZero : Bool) : String :=
  let whole := (d.exponent + 1).toNat
  if d.exponent < 0 then
    "0." ++ String.ofList (List.replicate (-d.exponent - 1).toNat '0' ++ d.digits)
  else if d.digits.length ≤ whole then
    String.ofList (d.digits ++ List.replicate (whole - d.digits.length) '0') ++
      if pointZero then ".0" else ""
  else
    String.ofList (d.digits.take whole) ++ "." ++ String.ofList (d.digits.drop whole)

/-- Exponent notation with the sign of the exponent always written. -/
def scientific (d : Decimal) : String :=
  let mantissa := match d.digits with
    | [] => "0"
    | [c] => c.toString
    | c :: rest => c.toString ++ "." ++ String.ofList rest
  mantissa ++ (if d.exponent < 0 then "e-" else "e+") ++ toString d.exponent.natAbs

end Decimal

/-- A number and the bounds of what rounds to it, in units of `2 ^ -1076`. -/
structure RoundingInterval where
  low : Nat
  mid : Nat
  high : Nat
  closed : Bool

namespace RoundingInterval

/-- One in units of `2 ^ -1076`. -/
def one : Nat := Nat.pow 2 1076

/-- Half a unit of the last place on either side; below a power of two the
numbers lie twice as dense. -/
def of (x : Binary64) : RoundingInterval :=
  let m := x.significand
  let u := Nat.pow 2 x.unitExponent
  let below := if m = Binary64.exponentPlace ∧ 0 < x.unitExponent then 1 else 2
  ⟨(4 * m - below) * u, 4 * m * u, (4 * m + 2) * u, m % 2 == 0⟩

/-- The exponent of the leading decimal digit of the number. -/
def leadingExponent (i : RoundingInterval) : Int :=
  if one ≤ i.mid then (Nat.toDigits 10 (i.mid / one)).length - 1
  else -((Nat.toDigits 10 ((one - 1) / i.mid)).length : Int)

/-- The point of the grid `10 ^ power` in the interval that is nearest the
number, if the grid has one there. -/
def nearest? (i : RoundingInterval) (tie : Tie) (power : Int) : Option Nat :=
  let grid := Nat.pow 10 power.toNat * one
  let scale := Nat.pow 10 (-power).toNat
  let lower := i.mid * scale / grid
  let inside (c : Nat) : Bool :=
    if i.closed then i.low * scale ≤ c * grid && c * grid ≤ i.high * scale
    else i.low * scale < c * grid && c * grid < i.high * scale
  match inside lower, inside (lower + 1) with
  | true, true =>
    let twice := 2 * (i.mid * scale)
    let middle := (2 * lower + 1) * grid
    if twice < middle then some lower
    else if middle < twice then some (lower + 1)
    else match tie with
      | .toEven => some (if lower % 2 = 0 then lower else lower + 1)
      | .up => some (lower + 1)
  | true, false => some lower
  | false, true => some (lower + 1)
  | false, false => none

/-- The first grid with a hit, from `10 ^ power` downwards. -/
def search (i : RoundingInterval) (tie : Tie) : Nat → Int → Decimal
  | 0, power => .ofGrid (i.mid * Nat.pow 10 (-power).toNat / (Nat.pow 10 power.toNat * one)) power
  | n + 1, power =>
    match i.nearest? tie power with
    | some c => .ofGrid c power
    | none => search i tie n (power - 1)

end RoundingInterval

/-- The shortest decimal that reads back as the magnitude of a finite number
other than zero. Seventeen digits always do. -/
def Binary64.shortest (tie : Tie) (x : Binary64) : Decimal :=
  let i := RoundingInterval.of x
  i.search tie 17 i.leadingExponent

end ParamQuery
