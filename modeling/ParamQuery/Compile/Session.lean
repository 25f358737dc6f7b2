/-
Several compilations on one registry. A session also holds the statements that
are open: a query is written into the innermost one, and finishing that
renders it. A statement inside an expression is opened while it is written, and
closed whether writing it succeeds or is refused.
-/
import ParamQuery.Compile.Naming

namespace ParamQuery

/-- A compiler at work: the table, the settings, the parameters so far and the
statements that are open. -/
structure Session where
  table : Table
  settings : Settings
  registry : Registry
  frames : Sql.FrameStack := []

namespace Session

/-- A new session: no parameters, and no statement open. -/
def start (table : Table) (settings : Settings) : Session :=
  { table := table, settings := settings, registry := .ofSettings settings }

/-- Run a step on the registry of the session. -/
def run {α : Type} (s : Session) (x : Naming α) : Except CompileError α × Session :=
  let (result, r) := x.runOn s.registry
  (result, { s with registry := r })

/-- Open a statement; the result is its depth. -/
def openStatement (s : Session) : Nat × Session :=
  let frames := Sql.FrameStack.push s.frames
  (frames.length, { s with frames := frames })

/-- Close the statements from a depth on and render the one at that depth. -/
def finishStatement (s : Session) (depth : Nat) : String × Session :=
  let (frame, frames) := Sql.FrameStack.closeFrom depth s.frames
  ((frame.map Sql.Frame.render).getD "", { s with frames := frames })

/-- Close the statements from a depth on. -/
def dropStatement (s : Session) (depth : Nat) : Session := (s.finishStatement depth).2

/-- Bind a value on its own. -/
def bind (s : Session) (b : Binding) : String × Session :=
  let (name, r) := s.registry.add b
  (name, { s with registry := r })

/-- Take over a command rendered elsewhere. -/
def absorb (s : Session) (c : Command) : String × Session :=
  let (text, r) := s.registry.absorb c
  (text, { s with registry := r })

end Session

/-! ## Statements inside expressions -/

/-- A step of a session: it may be refused, and changes the session either
way. -/
abbrev Assembly := ExceptT CompileError (StateM Session)

namespace Assembly

/-- Run a step on a session. -/
def runOn {α : Type} (x : Assembly α) (s : Session) : Except CompileError α × Session :=
  StateT.run (ExceptT.run x) s

/-- A step that only the registry takes part in. -/
def ofNaming {α : Type} (x : Naming α) : Assembly α := ExceptT.mk fun s => s.run x

/-- Replace the innermost open statement. -/
def overwrite (frame : Sql.Frame String) : Assembly Unit := ExceptT.mk fun s =>
  match Sql.FrameStack.replace? s.frames frame with
  | none => (.error .noOpenStatement, s)
  | some frames => (.ok (), { s with frames := frames })

/-- Settle the clauses of a statement and write them. -/
def write (select : Assembly (Sql.Select String)) : Assembly Unit := do
  overwrite (← select).frame

/-- A statement of its own, in parentheses. -/
def enclosed (select : Assembly (Sql.Select String)) : Assembly (Sql.Term String) := ExceptT.mk fun s =>
  let (depth, s) := s.openStatement
  match (write select).runOn s with
  | (.error e, s) => (.error e, s.dropStatement depth)
  | (.ok _, s) =>
    let (text, s) := s.finishStatement depth
    (.ok (.slot ("(" ++ text ++ ")")), s)

/-- Settle a slot on the registry of the session. -/
def settle (b : Slot) : Assembly String := ofNaming b.settle

end Assembly

namespace Session

/-- The text of an expression. -/
def expression (s : Session) (qualifier : Option String) (e : Expr) :
    Except CompileError String × Session :=
  let t := (e.emit (.ofSettings s.table s.settings qualifier) {} false).term
  (do
    let t ← t.walk Assembly.settle Assembly.enclosed
    return t.render : Assembly String).runOn s

/-- Write a query into the innermost open statement. -/
def query (s : Session) (q : Query) : Except CompileError Unit × Session :=
  let select := q.emit (.ofSettings s.table s.settings none)
  (Assembly.write (select.walk Assembly.settle Assembly.enclosed)).runOn s

end Session

end ParamQuery
