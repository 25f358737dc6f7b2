/-
SQL expressions and statements as trees. Where a value belongs there is a slot
of an open type: what a slot becomes is settled by a walk over the tree
(`Term.walk`, `Select.walk`) in the order in which the parts of the statement
are visited, which is not always the order of the text.

`Term.fragment` and `Select.frame` write a tree as tokens. They add no
parentheses beyond those that the tree has.
-/
import ParamQuery.Query.Operator
import ParamQuery.Sql.Decision
import ParamQuery.Sql.Frame
import ParamQuery.Sql.Template

namespace ParamQuery.Sql

/-- The operators between two operands. -/
inductive Infix where
  | operator (op : BinaryOp)
  /-- Concatenation of texts. -/
  | concat
deriving DecidableEq

/-- The operator between blanks. -/
def Infix.padded : Infix → String
  | .operator op => op.padded
  | .concat => " || "

mutual
/-- An SQL expression, with slots for the texts that are decided later. -/
inductive Term (β : Type) where
  | slot (b : β)
  /-- The name of a table. -/
  | table (name : String)
  | allColumns (table : String)
  /-- A column, and the way to a value inside it. -/
  | column (qualifier : Term β) (name : String) (steps : List String)
  | countAll
  | labelled (t : Term β) (label : String)
  | list (items : List (Term β))
  | operation (left : Term β) (op : Infix) (right : Term β)
  | nullTest (t : Term β) (negated : Bool)
  | negation (t : Term β)
  | paren (t : Term β)
  | lengthOf (t : Term β)
  | call (template : Template) (arguments : List (Term β))
  | caseWhen (arms : List (Arm β)) (otherwise : Term β)
  /-- The number of rows of a copy of the table whose key is the given one. -/
  | groupCount (table copy : String) (inner outer : Term β)
  | subquery (s : Select β)
/-- An arm of a `CASE`: its value counts where all of its guards hold. -/
structure Arm (β : Type) where
  guards : List (Term β)
  value : Term β
/-- A join and the two keys that it compares. -/
structure JoinOn (β : Type) where
  keyword : String
  table : String
  outer : Term β
  inner : Term β
/-- A sort key and the word for its direction. -/
structure SortTerm (β : Type) where
  key : Term β
  keyword : String
/-- A statement, clause by clause. -/
structure Select (β : Type) where
  distinct : Bool
  items : Term β
  schema : Option String
  table : String
  joins : List (JoinOn β)
  conditions : List (Term β)
  groupBy : List (Term β)
  orderBy : List (SortTerm β)
  limit : Option Nat
  offset : Option Nat
end

variable {β γ : Type}

/-! ## Tokens -/

/-- The guards of an arm: each in parentheses, unless there is only one. -/
def guardFragment : List (Fragment β) → Fragment β
  | [only] => only
  | guards => Fragment.separated " AND " (guards.map Fragment.parenthesized)

mutual
/-- What the term is written as. -/
def Term.fragment : Term β → Fragment β
  | .slot b => [.slot b]
  | .table name => [Token.name name]
  | .allColumns table => [Token.name table, Token.text ".*"]
  | .column qualifier name steps =>
    qualifier.fragment ++ Token.text "." :: Token.name name :: Fragment.traversal steps
  | .countAll => [Token.text "COUNT(*)"]
  | .labelled t label => t.fragment ++ [Token.text " AS ", Token.name label]
  | .list items => Fragment.separated ", " (termFragments items)
  | .operation left op right =>
    left.fragment ++ Token.text op.padded :: right.fragment
  | .nullTest t negated => t.fragment ++ [Token.text (if negated then " IS NOT NULL" else " IS NULL")]
  | .negation t => Token.text "NOT (" :: t.fragment ++ [Token.text ")"]
  | .paren t => Fragment.parenthesized t.fragment
  | .lengthOf t => Token.text "LENGTH(" :: t.fragment ++ [Token.text ")"]
  | .call template arguments =>
    template.expand (fun cs => [Token.text (String.ofList cs)]) (termFragments arguments)
  | .caseWhen arms otherwise =>
    Token.text "CASE" :: armFragments arms ++ Token.text " ELSE " :: otherwise.fragment ++ [Token.text " END"]
  | .groupCount table copy inner outer =>
    [Token.text "(SELECT COUNT(*) FROM ", Token.name table, Token.text " AS ", Token.name copy, Token.text " WHERE "] ++
      inner.fragment ++ Token.text " = " :: outer.fragment ++ [Token.text ")"]
  | .subquery s => Fragment.parenthesized s.frame.statement
/-- What each of some terms is written as. -/
def termFragments : List (Term β) → List (Fragment β)
  | [] => []
  | t :: rest => t.fragment :: termFragments rest
/-- What the arms of a `CASE` are written as, one behind another. -/
def armFragments : List (Arm β) → Fragment β
  | [] => []
  | ⟨guards, value⟩ :: rest =>
    Token.text " WHEN " :: guardFragment (termFragments guards) ++ Token.text " THEN " :: value.fragment ++
      armFragments rest
/-- What each of the joins is written as. -/
def joinFragments : List (JoinOn β) → List (Fragment β)
  | [] => []
  | ⟨keyword, table, outer, inner⟩ :: rest =>
    ([Token.text keyword, Token.text " ", Token.name table, Token.text " ON "] ++ outer.fragment ++
      Token.text " = " :: inner.fragment) :: joinFragments rest
/-- What each of the sort keys is written as. -/
def sortFragments : List (SortTerm β) → List (Fragment β)
  | [] => []
  | ⟨key, keyword⟩ :: rest => (key.fragment ++ [Token.text " ", Token.text keyword]) :: sortFragments rest
/-- The clauses of a statement. -/
def Select.frame : Select β → Frame β
  | ⟨distinct, items, schema, table, joins, conditions, groupBy, orderBy, limit, offset⟩ =>
    { distinct := distinct
      select := items.fragment
      source := match schema with
        | none => [.name table]
        | some s => Fragment.qualified s table
      joins := joinFragments joins
      conditions := termFragments conditions
      groupBy := termFragments groupBy
      orderBy := sortFragments orderBy
      limit := limit.map limitText
      offset := offset }
end

/-- The text of a term whose slots hold their texts. -/
def Term.render (t : Term String) : String := Fragment.render t.fragment

/-! ## Filling the slots -/

section Walk

variable {m : Type → Type} [Monad m] (f : β → m γ) (enclosed : m (Select γ) → m (Term γ))

mutual
/-- Settle every slot, in the order in which the term is visited. A statement
inside the term becomes what `enclosed` makes of it. -/
def Term.walk : Term β → m (Term γ)
  | .slot b => return .slot (← f b)
  | .table name => return .table name
  | .allColumns table => return .allColumns table
  | .column qualifier name steps => return .column (← qualifier.walk) name steps
  | .countAll => return .countAll
  | .labelled t label => return .labelled (← t.walk) label
  | .list items => return .list (← walkTerms items)
  | .operation left op right => do
    let left ← left.walk
    let right ← right.walk
    return .operation left op right
  | .nullTest t negated => return .nullTest (← t.walk) negated
  | .negation t => return .negation (← t.walk)
  | .paren t => return .paren (← t.walk)
  | .lengthOf t => return .lengthOf (← t.walk)
  | .call template arguments => return .call template (← walkTerms arguments)
  | .caseWhen arms otherwise => do
    let arms ← walkArms arms
    let otherwise ← otherwise.walk
    return .caseWhen arms otherwise
  | .groupCount table copy inner outer => do
    let inner ← inner.walk
    let outer ← outer.walk
    return .groupCount table copy inner outer
  | .subquery s => enclosed s.walk
/-- Settle the terms from left to right. -/
def walkTerms : List (Term β) → m (List (Term γ))
  | [] => return []
  | t :: rest => do
    let t ← t.walk
    let rest ← walkTerms rest
    return t :: rest
/-- Settle the arms from left to right, the guards of each before its value. -/
def walkArms : List (Arm β) → m (List (Arm γ))
  | [] => return []
  | ⟨guards, value⟩ :: rest => do
    let guards ← walkTerms guards
    let value ← value.walk
    let rest ← walkArms rest
    return ⟨guards, value⟩ :: rest
/-- Settle the joins from left to right, the outer key of each before the inner
one. -/
def walkJoins : List (JoinOn β) → m (List (JoinOn γ))
  | [] => return []
  | ⟨keyword, table, outer, inner⟩ :: rest => do
    let outer ← outer.walk
    let inner ← inner.walk
    let rest ← walkJoins rest
    return ⟨keyword, table, outer, inner⟩ :: rest
/-- Settle the sort keys from left to right. -/
def walkSortTerms : List (SortTerm β) → m (List (SortTerm γ))
  | [] => return []
  | ⟨key, keyword⟩ :: rest => do
    let key ← key.walk
    let rest ← walkSortTerms rest
    return ⟨key, keyword⟩ :: rest
/-- Settle every slot of a statement: the select list, the joins, the
conditions, the groups and the order. -/
def Select.walk : Select β → m (Select γ)
  | ⟨distinct, items, schema, table, joins, conditions, groupBy, orderBy, limit, offset⟩ => do
    let items ← items.walk
    let joins ← walkJoins joins
    let conditions ← walkTerms conditions
    let groupBy ← walkTerms groupBy
    let orderBy ← walkSortTerms orderBy
    return ⟨distinct, items, schema, table, joins, conditions, groupBy, orderBy, limit, offset⟩
end

end Walk

section MapM

variable {m : Type → Type} [Monad m] (f : β → m γ)

/-- A statement that stays what it is. -/
def asSubquery (s : m (Select γ)) : m (Term γ) := return .subquery (← s)

/-- Settle every slot, statements inside the term included. -/
def Term.mapM (t : Term β) : m (Term γ) := t.walk f asSubquery

/-- Settle every slot of the terms, one after another. -/
def mapTerms (ts : List (Term β)) : m (List (Term γ)) := walkTerms f asSubquery ts

/-- Settle every slot of the arms, one after another. -/
def mapArms (arms : List (Arm β)) : m (List (Arm γ)) := walkArms f asSubquery arms

/-- Settle every slot of the joins, one after another. -/
def mapJoins (js : List (JoinOn β)) : m (List (JoinOn γ)) := walkJoins f asSubquery js

/-- Settle every slot of the sort keys, one after another. -/
def mapSortTerms (ks : List (SortTerm β)) : m (List (SortTerm γ)) := walkSortTerms f asSubquery ks

/-- Settle every slot of a statement, and of the statements inside it. -/
def Select.mapM (s : Select β) : m (Select γ) := s.walk f asSubquery

end MapM

end ParamQuery.Sql
