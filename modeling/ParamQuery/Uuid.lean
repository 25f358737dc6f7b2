/-
Universally unique identifiers: 128 bits, written as 32 hexadecimal digits in
groups of 8, 4, 4, 4 and 12.
-/
import ParamQuery.Text.Padded

namespace ParamQuery

/-- An identifier of 128 bits. -/
structure Uuid where
  value : BitVec 128
deriving DecidableEq

/-- The hyphenated form in lower case. -/
def Uuid.text (u : Uuid) : String :=
  let ds := Text.padded 16 32 u.value.toNat
  let group (start length : Nat) : List Char := (ds.drop start).take length
  String.ofList (group 0 8 ++ '-' :: group 8 4 ++ '-' :: group 12 4 ++ '-' :: group 16 4 ++
    '-' :: group 20 12)

end ParamQuery
