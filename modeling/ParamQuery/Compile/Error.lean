/-
Why an expression or a query has no SQL.
-/

namespace ParamQuery

/-- Why an expression is not compiled. -/
inductive CompileError where
  /-- A call of a method that is not known. -/
  | unknownMethod (name : String)
  | missingReceiver (method : String)
  | unexpectedReceiver (method : String)
  | argumentCount (method : String) (count : Nat)
  | emptyPath
  | emptyProjection
  /-- A query written where no statement is open. -/
  | noOpenStatement
  /-- A member that no column matches, when that is an error. -/
  | unresolvedMember (path : List String) (table : String)
deriving DecidableEq

namespace CompileError

/-- Whether the cause is a path, and not an operation. -/
def isPathError : CompileError → Bool
  | .unresolvedMember _ _ => true
  | _ => false

/-- The kind of the error, which its message begins with. -/
def kind (e : CompileError) : String :=
  if e.isPathError then "AmbiguousPath" else "UnsupportedOperation"

/-- What is wrong, in words. -/
def detail : CompileError → String
  | .unknownMethod name => "method " ++ name ++ " is not supported"
  | .missingReceiver method => "method " ++ method ++ " expects a receiver"
  | .unexpectedReceiver method => "method " ++ method ++ " expects no receiver"
  | .argumentCount method count =>
    "method " ++ method ++ " does not accept " ++ toString count ++ " argument(s)"
  | .emptyPath => "member access without a member name"
  | .emptyProjection => "projection without members"
  | .noOpenStatement => "query model compiled outside of a statement scope"
  | .unresolvedMember path table =>
    "member " ++ ".".intercalate path ++ " does not match a column of " ++ table

/-- The whole text of the error: its kind and what is wrong. -/
def message (e : CompileError) : String := e.kind ++ ": " ++ e.detail

end CompileError

end ParamQuery
