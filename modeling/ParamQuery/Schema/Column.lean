/-
Columns, and the ordered columns of a table.

A column without a position goes to the end of the list. A column with a
position is inserted there, or at the end when the list is shorter, and every
column is then renumbered to its index.
-/
import ParamQuery.Schema.ColumnType

namespace ParamQuery

/-- A column of a table. -/
structure Column where
  /-- The name in the database. -/
  dbName : String
  /-- The name that expressions use, when it differs. -/
  memberName : Option String := none
  type : ColumnType := .text
  /-- What the column stores; the type implies it unless it is given. -/
  shape : Shape := type.shape
  /-- The requested place among the columns. -/
  position : Option Nat := none
  nullable : Bool := true
deriving DecidableEq

/-- The name that expressions use for the column. -/
def Column.effectiveName (c : Column) : String := c.memberName.getD c.dbName

/-- Columns in their final order. -/
structure Columns where
  toList : List Column := []
deriving DecidableEq

namespace Columns

/-- No columns. -/
def empty : Columns := {}

/-- How many columns there are. -/
def size (cs : Columns) : Nat := cs.toList.length

/-- Every column at the position that is its index. -/
def renumber (cs : List Column) : List Column :=
  cs.mapIdx fun i c => { c with position := some i }

/-- Put a column with a position in its place. -/
def place (cs : List Column) (c : Column) (position : Nat) : List Column :=
  renumber (cs.insertIdx (min position cs.length) c)

/-- Put a column behind the ones before it, or in its place. -/
def put (cs : List Column) (c : Column) : List Column :=
  match c.position with
  | none => cs ++ [c]
  | some position => place cs c position

/-- Build the list anew, column by column, so that a position beyond the end
is settled once the columns in front of it are there. -/
def replay (cs : List Column) : List Column := cs.foldl put []

/-- Add a column. -/
def add (cs : Columns) (c : Column) : Columns :=
  match c.position with
  | none => ⟨cs.toList ++ [c]⟩
  | some position => ⟨replay (place cs.toList c position)⟩

/-- The columns added one after another. -/
def ofList (cs : List Column) : Columns := cs.foldl add empty

end Columns

end ParamQuery
