/-
What the place of an expression means for its SQL. A mode is passed down and
never back up, so what is set for a part is gone behind it.
-/

namespace ParamQuery

/-- Where an expression stands, as far as its text depends on it. -/
structure Mode where
  /-- The root of a member: a source is written as its table alone. -/
  memberRoot : Bool := false
  /-- Inside an arm of a `CASE`. -/
  insideCase : Bool := false
  /-- In a projection: members carry their names. -/
  labelling : Bool := false
deriving DecidableEq

namespace Mode

/-- The mode for the root of a member. -/
def forMemberRoot (m : Mode) : Mode := { m with memberRoot := true, labelling := false }

/-- The mode for an arm of a `CASE`. Nothing else is taken over. -/
def inCase (_ : Mode) : Mode := { insideCase := true }

/-- The mode for the items of a projection. -/
def forLabels (m : Mode) : Mode := { m with labelling := true }

/-- The mode of an operand: nothing but being inside a `CASE` is kept. -/
def operand (m : Mode) : Mode := { insideCase := m.insideCase }

end Mode

end ParamQuery
