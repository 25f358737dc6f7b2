/-
A double from a significand and a power of ten, in floating point: the
significand is rounded, and so are the power of ten and their product or
quotient. The outcome is the nearest double when the significand and the
power are doubles themselves, as up to fifteen digits and `10 ^ 22` are;
otherwise it may lie a few units in the last place from it.
-/
import ParamQuery.Number.Binary64

namespace ParamQuery.Binary64

/-- The largest exponent of a power of ten that is a finite number. -/
def largestPower : Nat := 308

/-- The number nearest `10 ^ n`. -/
def powerOfTen (n : Nat) : Binary64 := ofRatio false (Nat.pow 10 n) 1

/-- The number `x / 10 ^ n`, in steps whose divisors are finite. A significand
of 64 bits leaves nothing after two full steps. -/
def dividedByPower (x : Binary64) (n : Nat) : Binary64 :=
  if n ≤ largestPower then x.div (powerOfTen n)
  else if n ≤ 2 * largestPower then
    (x.div (powerOfTen largestPower)).div (powerOfTen (n - largestPower))
  else ofMagnitude x.isNegative 0

/-- The number `significand * 10 ^ exponent` for a significand of 64 bits. It
is infinite when the power or the product is too large. -/
def scaled (negative : Bool) (significand : Nat) (exponent : Int) : Binary64 :=
  let x := ofRatio negative significand 1
  if significand = 0 then ofMagnitude negative 0
  else if exponent < 0 then x.dividedByPower exponent.natAbs
  else if exponent.toNat ≤ largestPower then x.mul (powerOfTen exponent.toNat)
  else ofMagnitude negative infiniteMagnitude

end ParamQuery.Binary64
