/-
Sets of characters given as closed intervals of code points, the form in
which the character tables of this library are written down.
-/

namespace ParamQuery.Text

/-- Closed intervals of code points, `(first, last)`. -/
abbrev CodePoints := List (Nat × Nat)

/-- Whether one of the intervals holds `c`. -/
def CodePoints.has (set : CodePoints) (c : Char) : Bool :=
  set.any fun r => r.1 ≤ c.toNat && c.toNat ≤ r.2

end ParamQuery.Text
