/-
Operators of expressions: their SQL text, how strongly they bind, and which
of them may be regrouped.
-/

namespace ParamQuery

/-- The operators with two operands. -/
inductive BinaryOp where
  | equal
  | notEqual
  | greaterThan
  | greaterThanOrEqual
  | lessThan
  | lessThanOrEqual
  | add
  | subtract
  | multiply
  | divide
  | modulo
  | and
  | or
  | exclusiveOr
  | leftShift
  | rightShift
  | andAlso
  | orElse
deriving DecidableEq

/-- The operators with one operand. -/
inductive UnaryOp where
  | not
  /-- A conversion to another type. -/
  | convert
  /-- A cast that keeps the value. -/
  | typeAs
deriving DecidableEq

namespace BinaryOp

/-- What the operator is called. -/
def name : BinaryOp → String
  | .equal => "Equal"
  | .notEqual => "NotEqual"
  | .greaterThan => "GreaterThan"
  | .greaterThanOrEqual => "GreaterThanOrEqual"
  | .lessThan => "LessThan"
  | .lessThanOrEqual => "LessThanOrEqual"
  | .add => "Add"
  | .subtract => "Subtract"
  | .multiply => "Multiply"
  | .divide => "Divide"
  | .modulo => "Modulo"
  | .and => "And"
  | .or => "Or"
  | .exclusiveOr => "ExclusiveOr"
  | .leftShift => "LeftShift"
  | .rightShift => "RightShift"
  | .andAlso => "AndAlso"
  | .orElse => "OrElse"

/-- All operators with two operands. -/
def all : List BinaryOp :=
  [.equal, .notEqual, .greaterThan, .greaterThanOrEqual, .lessThan, .lessThanOrEqual, .add,
    .subtract, .multiply, .divide, .modulo, .and, .or, .exclusiveOr, .leftShift, .rightShift,
    .andAlso, .orElse]

/-- The operator of that name. -/
def ofName? (s : String) : Option BinaryOp := all.find? (·.name == s)

/-- The operator in SQL. -/
def symbol : BinaryOp → String
  | .equal => "="
  | .notEqual => "!="
  | .greaterThan => ">"
  | .greaterThanOrEqual => ">="
  | .lessThan => "<"
  | .lessThanOrEqual => "<="
  | .add => "+"
  | .subtract => "-"
  | .multiply => "*"
  | .divide => "/"
  | .modulo => "%"
  | .and => "&"
  | .or => "|"
  | .exclusiveOr => "#"
  | .leftShift => "<<"
  | .rightShift => ">>"
  | .andAlso => "AND"
  | .orElse => "OR"

/-- The operator between blanks, as it stands between its operands. -/
def padded (op : BinaryOp) : String := " " ++ op.symbol ++ " "

/-- The operator as a value of its own, for people. -/
def debug (op : BinaryOp) : String := "BinaryOp(" ++ op.symbol ++ ")"

/-- Whether the operator compares its operands. -/
def isComparison : BinaryOp → Bool
  | .equal | .notEqual | .greaterThan | .greaterThanOrEqual | .lessThan | .lessThanOrEqual => true
  | _ => false

/-- The comparisons that turn into null tests beside a null constant. -/
def isEquality : BinaryOp → Bool
  | .equal | .notEqual => true
  | _ => false

/-- Whether the operator joins two conditions. -/
def isLogical : BinaryOp → Bool
  | .andAlso | .orElse => true
  | _ => false

/-- Whether the operator works on the bits of integers. -/
def isBitwise : BinaryOp → Bool
  | .and | .or | .exclusiveOr | .leftShift | .rightShift => true
  | _ => false

/-- How strongly the operator binds in SQL; higher binds tighter. -/
def precedence : BinaryOp → Nat
  | .orElse => 1
  | .andAlso => 2
  | .equal | .notEqual | .greaterThan | .greaterThanOrEqual | .lessThan | .lessThanOrEqual => 4
  | .and | .or | .exclusiveOr | .leftShift | .rightShift => 5
  | .add | .subtract => 6
  | .multiply | .divide | .modulo => 7

/-- Whether the right operand may be the same operator without parentheses. -/
def isAssociative : BinaryOp → Bool
  | .add | .multiply | .and | .or | .exclusiveOr | .andAlso | .orElse => true
  | _ => false

end BinaryOp

/-- The level of negation, between the connectives and the comparisons. -/
def negationPrecedence : Nat := 3

/-- The level of the comparisons. -/
def comparisonPrecedence : Nat := 4

/-- The level that concatenation and JSON access share with the bit operators. -/
def otherPrecedence : Nat := 5

end ParamQuery
