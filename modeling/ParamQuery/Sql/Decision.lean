/-
Nested conditionals as decision trees, and their flattening into one list of
guarded arms. A conditional in a false branch adds arms behind; one in a true
branch becomes arms that are guarded by every test around them.
-/

namespace ParamQuery.Sql

/-- A tree of tests with values at its leaves. -/
inductive Decision (α : Type) where
  | leaf (value : α)
  | test (condition : α) (ifTrue ifFalse : Decision α)

namespace Decision

variable {α : Type}

/-- The arms of the tree below `guards`, and the value when none applies. -/
def flattenUnder (guards : List α) : Decision α → List (List α × α) × α
  | .leaf value => ([], value)
  | .test condition ifTrue ifFalse =>
    let inner := guards ++ [condition]
    let yes := ifTrue.flattenUnder inner
    let no := ifFalse.flattenUnder guards
    (yes.1 ++ (inner, yes.2) :: no.1, no.2)

/-- The arms of the tree, and the value when none applies. -/
def flatten (d : Decision α) : List (List α × α) × α := d.flattenUnder []

end Decision

end ParamQuery.Sql
