/-
Queries as trees: expressions, the sources they refer to, and whole queries,
which are expressions again when they stand inside another one.
-/
import ParamQuery.Filter.Basic
import ParamQuery.Literal
import ParamQuery.Query.Method
import ParamQuery.Query.Operator

namespace ParamQuery

/-- The kinds of joins. -/
inductive JoinKind where
  | inner
  | left
deriving DecidableEq

/-- The directions of a sort. -/
inductive SortDirection where
  | ascending
  | descending
deriving DecidableEq

mutual
/-- An expression of a query. -/
inductive Expr where
  /-- All columns of a source. -/
  | source (s : Source)
  /-- A query whose result is a value. -/
  | subquery (q : Query)
  | binary (op : BinaryOp) (left right : Expr)
  | conditional (test ifTrue ifFalse : Expr)
  | constant (value : Literal)
  /-- A member of a source, or of the table being compiled. The first segment
  names a column, the others lead into its JSON content. -/
  | member (root : Option Source) (path : List String) (type : ValueType)
  | call (method : Method) (receiver : Option Expr) (arguments : List Expr)
  /-- A list of values, each with the name of its member. -/
  | project (items : List Expr)
  | unary (op : UnaryOp) (operand : Expr)
/-- The keys of a group join. The inner key is evaluated on a copy of the
table, to count the members of a group. -/
structure GroupJoin where
  outer : Expr
  inner : Expr
/-- Where rows come from. -/
structure Source where
  typeName : String
  members : List String
  /-- The table of the source, `none` for the one being compiled. -/
  table : Option String
  groupJoin : Option GroupJoin
/-- Another table, and the two keys that have to be equal. -/
structure Join where
  kind : JoinKind
  table : String
  outer : Expr
  inner : Expr
/-- What rows are sorted by, and in which direction. -/
structure SortKey where
  key : Expr
  direction : SortDirection
/-- A query: where its rows are from, which of them are taken, and what is
selected. -/
structure Query where
  source : Source
  /-- What is selected, `none` for all columns of the source. -/
  selector : Option Expr
  joins : List Join
  conditions : List Expr
  filters : List Filter
  groupBy : List Expr
  orderBy : List SortKey
  limit : Option Nat
  offset : Option Nat
  distinct : Bool
  /-- Whether only the number of rows is asked for. -/
  count : Bool
end

/-! ## Members -/

/-- The last segment of a path. -/
def memberName (path : List String) : String := path.getLast?.getD ""

/-- Whether a path ends in the length of another member. -/
def isLengthPath (path : List String) : Bool := 1 < path.length && memberName path == "Length"

/-! ## Types and calls -/

namespace Expr

/-- The member that a member is taken of, which holds text when a length is
taken. -/
def parent? : Expr → Option Expr
  | .member root path _ => some (.member root path.dropLast .text)
  | _ => none

/-- The null constant. -/
def isNull : Expr → Bool
  | .constant .null => true
  | _ => false

/-- The type of a sum, difference, product, quotient or remainder. -/
def arithmeticType (op : BinaryOp) (left right : ValueType) : ValueType :=
  if op = .add ∧ (left.isText ∨ right.isText) then .text
  else if left = .float ∨ right = .float then .float
  else if left = .unknown then right
  else left

/-- The type of an expression, as far as it is known without the columns. -/
def valueType : Expr → ValueType
  | .source _ | .subquery _ | .project _ => .unknown
  | .binary op left right =>
    if op.isComparison || op.isLogical then .boolean
    else if op.isBitwise then .integer
    else arithmeticType op left.valueType right.valueType
  | .conditional _ ifTrue ifFalse =>
    match ifTrue.valueType with
    | .unknown => ifFalse.valueType
    | t => t
  | .constant value => value.valueType
  | .member _ path type => if isLengthPath path then .integer else type
  | .call method _ _ => method.valueType
  | .unary .not _ => .boolean
  | .unary .convert operand | .unary .typeAs operand => operand.valueType

/-- Whether an operation on the operands is a concatenation of texts. -/
def isConcatenation (op : BinaryOp) (left right : Expr) : Bool :=
  op == .add && (left.valueType.isText || right.valueType.isText)

end Expr

end ParamQuery
