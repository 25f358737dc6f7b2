/-
Digits of a number brought to a least width by zeros in front.
-/

namespace ParamQuery.Text

/-- The digits of `n` in the given base, at least `width` of them. -/
def padded (base width n : Nat) : List Char :=
  let ds := Nat.toDigits base n
  List.replicate (width - ds.length) '0' ++ ds

end ParamQuery.Text
