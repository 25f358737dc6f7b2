/-
Double-precision numbers, held as their 64 bits, with exact integer
arithmetic in place of machine arithmetic. A finite number is
`significand * 2 ^ unitExponent` units of `2 ^ -1074`, so every question
about its value is one about natural numbers.

`ofRatio` rounds a quotient to the nearest number, a tie to the even
significand; products and quotients of numbers are rounded through it.
-/

namespace ParamQuery

/-- A binary floating point number of 64 bits, given by its bits. -/
structure Binary64 where
  bits : UInt64
deriving DecidableEq

namespace Binary64

/-- The place of the sign bit, `2 ^ 63`. -/
def signPlace : Nat := 0x8000000000000000

/-- The place of the exponent's last bit, `2 ^ 52`. -/
def exponentPlace : Nat := 0x10000000000000

/-- The bits as a natural number. -/
def word (x : Binary64) : Nat := x.bits.toNat

/-- Whether the sign is set, also that of a zero. -/
def isNegative (x : Binary64) : Bool := signPlace ≤ x.word

/-- The eleven bits of the biased exponent. -/
def exponentField (x : Binary64) : Nat := x.word / exponentPlace % 2048

/-- The fifty-two bits of the fraction. -/
def fraction (x : Binary64) : Nat := x.word % exponentPlace

/-- Whether the bits are a number, and not an infinite one. -/
def isFinite (x : Binary64) : Bool := x.exponentField != 2047

/-- Whether the number is infinite. -/
def isInfinite (x : Binary64) : Bool := !x.isFinite && x.fraction == 0

/-- Whether the bits are no number. -/
def isNaN (x : Binary64) : Bool := !x.isFinite && x.fraction != 0

/-- Either of the two zeros. -/
def isZero (x : Binary64) : Bool := x.word % signPlace == 0

/-- The significand of a finite number as an integer. -/
def significand (x : Binary64) : Nat :=
  if x.exponentField = 0 then x.fraction else exponentPlace + x.fraction

/-- The power of two that the significand counts, in units of `2 ^ -1074`. -/
def unitExponent (x : Binary64) : Nat := x.exponentField - 1

/-- Equality of the numbers: the two zeros are equal, a NaN equals nothing. -/
def numEq (x y : Binary64) : Bool :=
  !x.isNaN && !y.isNaN && (x.bits == y.bits || x.isZero && y.isZero)

/-- The number with the given sign whose other 63 bits are `magnitude`. -/
def ofMagnitude (negative : Bool) (magnitude : Nat) : Binary64 :=
  ⟨UInt64.ofNat ((if negative then signPlace else 0) + magnitude)⟩

/-- The magnitude bits of infinity; every finite number has smaller ones. -/
def infiniteMagnitude : Nat := 2047 * exponentPlace

/-- The quotient rounded to the nearest integer, a tie to the even one. -/
def roundQuotient (num den : Nat) : Nat :=
  let q := num / den
  let r := num % den
  if 2 * r < den then q
  else if den < 2 * r then q + 1
  else if q % 2 = 0 then q else q + 1

/-- The number nearest `num / den`, infinite when that lies beyond the largest
finite one. With `p` the power of two that gives a significand of at most 53
bits, `p * 2 ^ 52 + significand` are the magnitude bits also when rounding
carries into the next power. -/
def ofRatio (negative : Bool) (num den : Nat) : Binary64 :=
  let scaled := num * Nat.pow 2 1074
  let p := (scaled / den).log2 - 52
  let m := roundQuotient scaled (den * Nat.pow 2 p)
  ofMagnitude negative (min (p * exponentPlace + m) infiniteMagnitude)

/-- The number nearest an integer. -/
def ofInt (n : Int) : Binary64 := ofRatio (n < 0) n.natAbs 1

/-- The magnitude of a finite number in units of `2 ^ -1074`. -/
def units (x : Binary64) : Nat := x.significand * Nat.pow 2 x.unitExponent

/-- The product of two finite numbers, rounded once. -/
def mul (x y : Binary64) : Binary64 :=
  ofRatio (x.isNegative != y.isNegative) (x.units * y.units) (Nat.pow 2 2148)

/-- The quotient of two finite numbers, the second not zero, rounded once. -/
def div (x y : Binary64) : Binary64 :=
  ofRatio (x.isNegative != y.isNegative) x.units y.units

end Binary64

end ParamQuery
