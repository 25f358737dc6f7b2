/-
Filters: conditions on the columns of one table, joined by connectives. Each
value has a parameter name of its own, given when the filter is made.
-/
import ParamQuery.Filter.Path
import ParamQuery.Param.Command

namespace ParamQuery

/-- The comparisons of a filter. -/
inductive CompareOp where
  | equal
  | notEqual
  | greaterThan
  | greaterThanOrEqual
  | lessThan
  | lessThanOrEqual
deriving DecidableEq

namespace CompareOp

/-- What the comparison is called. -/
def name : CompareOp → String
  | .equal => "Equal"
  | .notEqual => "NotEqual"
  | .greaterThan => "GreaterThan"
  | .greaterThanOrEqual => "GreaterThanOrEqual"
  | .lessThan => "LessThan"
  | .lessThanOrEqual => "LessThanOrEqual"

/-- All comparisons. -/
def all : List CompareOp :=
  [.equal, .notEqual, .greaterThan, .greaterThanOrEqual, .lessThan, .lessThanOrEqual]

/-- The comparison of that name. -/
def ofName? (s : String) : Option CompareOp := all.find? (·.name == s)

/-- The operator in SQL. -/
def symbol : CompareOp → String
  | .equal => "="
  | .notEqual => "!="
  | .greaterThan => ">"
  | .greaterThanOrEqual => ">="
  | .lessThan => "<"
  | .lessThanOrEqual => "<="

/-- What the name of a parameter begins with. -/
def key : CompareOp → String
  | .equal => "eq"
  | .notEqual => "ne"
  | .greaterThan => "gt"
  | .greaterThanOrEqual => "gte"
  | .lessThan => "lt"
  | .lessThanOrEqual => "lte"

end CompareOp

/-- A value of a filter and the name of its parameter. -/
structure FilterParameter where
  name : String
  value : Literal

/-- A parameter with a name of its own: what it is for, and a number that no
other parameter has, in 32 hexadecimal digits. -/
def FilterParameter.numbered (key : String) (number : Nat) (value : Literal) : FilterParameter :=
  ⟨key ++ "_" ++ String.ofList (Text.padded 16 32 number), value⟩

/-- A condition on the columns of a table, with the values that it compares to. -/
inductive Filter where
  | compare (path : String) (op : CompareOp) (value : FilterParameter)
  | like (path : String) (pattern : FilterParameter)
  | isNull (path : String) (negated : Bool)
  | between (path : String) (low high : FilterParameter)
  | and (items : List Filter)
  | or (items : List Filter)
  | not (item : Filter)

/-! ## Equality -/

/-- The same name and the same value. -/
def FilterParameter.same (p q : FilterParameter) : Bool :=
  p.name == q.name && p.value.sameValue q.value

namespace Filter

mutual
/-- Structural equality, with literals compared by value. -/
def same : Filter → Filter → Bool
  | .compare p o v, .compare q r w => p == q && o == r && v.same w
  | .like p v, .like q w => p == q && v.same w
  | .isNull p a, .isNull q b => p == q && a == b
  | .between p l h, .between q m i => p == q && l.same m && h.same i
  | .and xs, .and ys => sameItems xs ys
  | .or xs, .or ys => sameItems xs ys
  | .not x, .not y => same x y
  | _, _ => false
/-- Filters that are the same one by one. -/
def sameItems : List Filter → List Filter → Bool
  | [], [] => true
  | x :: xs, y :: ys => same x y && sameItems xs ys
  | _, _ => false
end

end Filter

end ParamQuery
