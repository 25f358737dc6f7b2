/-
The SQL of a filter, with or without the table in front of its columns, and
its parameters from left to right.
-/
import ParamQuery.Filter.Basic

namespace ParamQuery

/-- The token of a filter's parameter. -/
def FilterParameter.token (p : FilterParameter) : Sql.Token String := .slot ("@" ++ p.name)

/-- The binding of a filter's parameter; beside JSON text it is bound as text. -/
def FilterParameter.binding (p : FilterParameter) (target : PathTarget) : String × Binding :=
  (p.name, ⟨p.value, if target.jsonText then some .text else none⟩)

namespace Filter

mutual
/-- The condition as SQL. A connective without items is the truth value that
changes nothing. -/
def fragment (table : Table) (qualifier : Option String) : Filter → Sql.Fragment String
  | .compare path op value =>
    ((ColumnPath.parse path).resolve table qualifier).predicate
      [.text op.symbol, .text " ", value.token]
  | .like path pattern =>
    ((ColumnPath.parse path).resolve table qualifier).predicate [.text "LIKE ", pattern.token]
  | .isNull path negated =>
    ((ColumnPath.parse path).resolve table qualifier).predicate
      [.text (if negated then "IS NOT NULL" else "IS NULL")]
  | .between path low high =>
    ((ColumnPath.parse path).resolve table qualifier).predicate
      [.text "BETWEEN ", low.token, .text " AND ", high.token]
  | .and [] => [.text "TRUE"]
  | .and items => Sql.Fragment.separated " AND " (fragments table qualifier items)
  | .or [] => [.text "FALSE"]
  | .or items => Sql.Fragment.separated " OR " (fragments table qualifier items)
  | .not item => Sql.Token.text "NOT (" :: fragment table qualifier item ++ [Sql.Token.text ")"]
/-- The texts of the items of a conjunction or a disjunction, each in
parentheses. -/
def fragments (table : Table) (qualifier : Option String) : List Filter → List (Sql.Fragment String)
  | [] => []
  | item :: rest =>
    Sql.Fragment.parenthesized (fragment table qualifier item) :: fragments table qualifier rest
end

mutual
/-- The bindings of the parameters, from left to right. -/
def bindings (table : Table) (qualifier : Option String) : Filter → List (String × Binding)
  | .compare path _ value => [value.binding ((ColumnPath.parse path).resolve table qualifier)]
  | .like path pattern => [pattern.binding ((ColumnPath.parse path).resolve table qualifier)]
  | .isNull _ _ => []
  | .between path low high =>
    let target := (ColumnPath.parse path).resolve table qualifier
    [low.binding target, high.binding target]
  | .and items => bindingsOf table qualifier items
  | .or items => bindingsOf table qualifier items
  | .not item => bindings table qualifier item
/-- The parameters of some filters, in order. -/
def bindingsOf (table : Table) (qualifier : Option String) : List Filter → List (String × Binding)
  | [] => []
  | item :: rest => bindings table qualifier item ++ bindingsOf table qualifier rest
end

/-- The filter as a command, its columns qualified by a table if one is given. -/
def command (f : Filter) (table : Table) (qualifier : Option String) : Command :=
  ⟨Sql.Fragment.render (f.fragment table qualifier), .ofList (f.bindings table qualifier)⟩

end Filter

end ParamQuery
