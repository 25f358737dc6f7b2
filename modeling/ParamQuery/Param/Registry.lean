/-
The parameters of one compilation. The registry hands out names: in named
style the stem and a running number, in positional style the number of the
binding, counted from one.

A command rendered elsewhere is absorbed: in named style its bindings keep
their names, in positional style they are numbered on, and each token of its
text is replaced, one name after another.
-/
import ParamQuery.Param.Command
import ParamQuery.Settings
import ParamQuery.Text.Replace

namespace ParamQuery

/-- The parameters of a compilation, and how the next one is named. -/
structure Registry where
  style : ParameterStyle
  stem : String
  /-- How many names have been handed out. -/
  counter : Nat := 0
  parameters : Parameters := .empty

namespace Registry

/-- A registry without parameters. -/
def ofSettings (s : Settings) : Registry := { style := s.style, stem := s.stem }

/-- The name that the next value gets. -/
def nextName (r : Registry) : String :=
  match r.style with
  | .named => r.stem ++ toString r.counter
  | .positional => toString (r.parameters.size + 1)

/-- A parameter as it is written in SQL. -/
def token (r : Registry) (name : String) : String :=
  match r.style with
  | .named => "@" ++ name
  | .positional => "$" ++ name

/-- Bind a value to the next name. -/
def add (r : Registry) (b : Binding) : String × Registry :=
  let name := r.nextName
  (name, { r with counter := r.counter + 1, parameters := r.parameters.insert name b })

/-- Absorb one binding of a command into the registry and the command's text. -/
def absorbBinding (acc : String × Registry) (entry : String × Binding) : String × Registry :=
  let (text, r) := acc
  let (name, b) := entry
  match r.style with
  | .named => (text, { r with parameters := r.parameters.insert name b })
  | .positional =>
    let (fresh, r) := r.add b
    (Text.replaceAll ("@" ++ name) (r.token fresh) text, r)

/-- Take over the bindings of a command; the result is its text with the
tokens that are valid here. -/
def absorb (r : Registry) (c : Command) : String × Registry :=
  c.parameters.toList.foldl absorbBinding (c.text, r)

end Registry

end ParamQuery
