/-
Settling the slots of a term with the registry of a compilation. The registry
is kept when a slot refuses: values met before the refusal stay bound.

`Expr.compile` and `Query.compile` are a whole compilation: emission, settling
in visiting order from an empty registry, and the text.
-/
import ParamQuery.Compile.Emit
import ParamQuery.Param.Registry

namespace ParamQuery

/-- A step of a compilation: it may be refused, and changes the registry
either way. -/
abbrev Naming := ExceptT CompileError (StateM Registry)

/-- The text of a slot. -/
def Slot.settle : Slot → Naming String
  | .value v asText => modifyGet fun r =>
    let (name, r) := r.add ⟨v, if asText then some .text else none⟩
    (r.token name, r)
  | .filter c => modifyGet fun r => r.absorb c
  | .reject e => throw e

/-- The text of a term. -/
def settleTerm (t : Sql.Term Slot) : Naming String := do
  let t ← t.mapM Slot.settle
  return t.render

/-- The clauses of a statement. -/
def settleSelect (s : Sql.Select Slot) : Naming (Sql.Frame String) := do
  let s ← s.mapM Slot.settle
  return s.frame

/-- Run a step on a registry. -/
def Naming.runOn {α : Type} (x : Naming α) (r : Registry) : Except CompileError α × Registry :=
  StateT.run (ExceptT.run x) r

theorem Naming.runOn_pure {α : Type} (a : α) (r : Registry) :
    (pure a : Naming α).runOn r = (.ok a, r) := rfl

theorem Naming.runOn_throw {α : Type} (e : CompileError) (r : Registry) :
    (throw e : Naming α).runOn r = (.error e, r) := rfl

/-- The second step runs on the registry that the first one leaves. -/
theorem Naming.runOn_bind {α β : Type} (x : Naming α) (f : α → Naming β) (r : Registry) :
    (x >>= f).runOn r = match x.runOn r with
      | (.ok a, r) => (f a).runOn r
      | (.error e, r) => (.error e, r) := by
  simp only [Naming.runOn, ExceptT.run, StateT.run, bind, ExceptT.bind, ExceptT.mk, StateT.bind,
    ExceptT.bindCont]
  rcases x r with ⟨_ | _, _⟩ <;> rfl

/-- The scope of an expression on a table. -/
def Scope.ofSettings (table : Table) (settings : Settings) (qualifier : Option String) : Scope :=
  { table := table, strict := settings.strict, qualifier := qualifier }

/-- The command of what a step gives from an empty registry. -/
def Naming.toCommand (x : Naming String) (settings : Settings) : Except CompileError Command :=
  match x.runOn (Registry.ofSettings settings) with
  | (.ok text, r) => .ok ⟨text, r.parameters⟩
  | (.error e, _) => .error e

/-- Compile an expression on its own, its columns qualified by a name if one is
given. -/
def Expr.compile (e : Expr) (table : Table) (settings : Settings) (qualifier : Option String) :
    Except CompileError Command :=
  (settleTerm (e.emit (.ofSettings table settings qualifier) {} false).term).toCommand settings

/-- Compile a whole query. -/
def Query.compile (q : Query) (table : Table) (settings : Settings) : Except CompileError Command :=
  (do
    let frame ← settleSelect (q.emit (.ofSettings table settings none))
    return frame.render : Naming String).toCommand settings

end ParamQuery
