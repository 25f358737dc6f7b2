/-
Method calls by name. A call that the method does not accept is refused when
it is made, not when it is compiled.
-/
import ParamQuery.Compile.Error
import ParamQuery.Query.Expr

namespace ParamQuery

/-- A call of a known method, if the method takes such a receiver and so many
arguments. -/
def Expr.callOf (method : Method) (receiver : Option Expr) (arguments : List Expr) :
    Except CompileError Expr :=
  if method.hasReceiver && receiver.isNone then .error (.missingReceiver method.name)
  else if !method.hasReceiver && receiver.isSome then .error (.unexpectedReceiver method.name)
  else if method.accepts arguments.length then .ok (.call method receiver arguments)
  else .error (.argumentCount method.name arguments.length)

/-- A call of the method with the given name. -/
def Expr.callNamed (name : String) (receiver : Option Expr) (arguments : List Expr) :
    Except CompileError Expr :=
  match Method.ofName? name with
  | none => .error (.unknownMethod name)
  | some method => Expr.callOf method receiver arguments

end ParamQuery
