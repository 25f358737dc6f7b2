/-
SQL text with the values of its parameters. The parameters keep the order in
which their names first appeared; a name that is set again keeps its place.
-/
import ParamQuery.Literal

namespace ParamQuery

/-- A value bound to a parameter. -/
structure Binding where
  value : Literal
  /-- The type to bind the value as in place of its own. -/
  override : Option ColumnType := none

/-- The type a value is bound as. -/
def Binding.type (b : Binding) : Option ColumnType := b.override.or b.value.nativeType

/-- Bindings by parameter name, in order of first appearance. -/
structure Parameters where
  toList : List (String × Binding) := []

namespace Parameters

/-- No parameters. -/
def empty : Parameters := {}

/-- How many parameters there are. -/
def size (ps : Parameters) : Nat := ps.toList.length

/-- The names, in order. -/
def names (ps : Parameters) : List String := ps.toList.map (·.1)

/-- What a name is bound to. -/
def get? (ps : Parameters) (name : String) : Option Binding :=
  (ps.toList.find? (·.1 == name)).map (·.2)

/-- Set a name in a list of bindings: in its place, or at the end. -/
def setIn (name : String) (b : Binding) : List (String × Binding) → List (String × Binding)
  | [] => [(name, b)]
  | (n, c) :: rest => if n = name then (n, b) :: rest else (n, c) :: setIn name b rest

/-- A name with its value. A name that is there keeps its place. -/
def insert (ps : Parameters) (name : String) (b : Binding) : Parameters :=
  ⟨setIn name b ps.toList⟩

theorem setIn_of_notMem {name : String} {b : Binding} {bs : List (String × Binding)}
    (h : name ∉ bs.map (·.1)) : setIn name b bs = bs ++ [(name, b)] := by
  induction bs with
  | nil => rfl
  | cons p rest ih =>
    obtain ⟨n, c⟩ := p
    simp only [List.map_cons, List.mem_cons, not_or] at h
    simp [setIn, Ne.symm h.1, ih h.2]

/-- A new name goes to the end. -/
theorem toList_insert_of_notMem {ps : Parameters} {name : String} {b : Binding}
    (h : name ∉ ps.names) : (ps.insert name b).toList = ps.toList ++ [(name, b)] :=
  setIn_of_notMem h

/-- The bindings set one after another. -/
def ofList (bs : List (String × Binding)) : Parameters :=
  bs.foldl (fun ps (name, b) => ps.insert name b) empty

end Parameters

/-- An SQL text and the values of its parameters. -/
structure Command where
  text : String := ""
  parameters : Parameters := .empty

namespace Command

/-- Write more text behind the command. -/
def append (c : Command) (s : String) : Command := { c with text := c.text ++ s }

/-- Bind a parameter of the command. -/
def bind (c : Command) (name : String) (b : Binding) : Command :=
  { c with parameters := c.parameters.insert name b }

end Command

end ParamQuery
