/-
From queries to SQL terms. `Expr.emit` and `Query.emit` are total: a constant
becomes a slot that asks for a parameter, a filter a slot that asks for its
command to be absorbed, and what cannot be written a slot that refuses. The
registry of a compilation settles the slots later.

One thing flows from left to right. A member inside a JSON document is text,
whatever is stored there, and a constant beside it has to be bound as text.
`Emitted.jsonText` says whether an expression is such a member; it is passed
to what is compared with it.
-/
import ParamQuery.Compile.Error
import ParamQuery.Compile.Mode
import ParamQuery.Filter.Command
import ParamQuery.Query.Expr
import ParamQuery.Sql.Term

namespace ParamQuery

/-- What a place of an SQL term asks for. -/
inductive Slot where
  /-- A parameter for a value. -/
  | value (v : Literal) (asText : Bool)
  /-- The text of a filter, its parameters taken over. -/
  | filter (c : Command)
  /-- Nothing can be written here. -/
  | reject (e : CompileError)

/-! ## Names -/

/-- What names mean while an expression is compiled. -/
structure Scope where
  table : Table
  /-- Whether a member without a column is an error. -/
  strict : Bool := false
  /-- What stands for the table in front of its columns. -/
  qualifier : Option String := none

namespace Scope

/-- The name in front of the columns of a source, given the table that the
source names. -/
def tableName (sc : Scope) (own : Option String) : String :=
  own.getD (sc.qualifier.getD sc.table.name)

/-- Whether a source names another table than the one that is described. -/
def isForeign (sc : Scope) : Option String → Bool
  | none => false
  | some t => t != sc.table.name

/-- The column that a member of a source means; the columns of other tables
are not known. -/
def column? (sc : Scope) (own : Option String) (member : String) : Option Column :=
  if sc.isForeign own then none else sc.table.columnByMember? member

/-- The columns of a source, as pairs of a member and its column's name. -/
def sourceColumns (sc : Scope) (own : Option String) (members : List String) :
    List (String × String) :=
  if members.isEmpty then
    if sc.isForeign own then []
    else sc.table.columns.toList.map fun c => (c.effectiveName, c.dbName)
  else members.map fun member => (member, ((sc.column? own member).map (·.dbName)).getD member)

end Scope

/-! ## Parentheses -/

/-- How strongly the SQL of an expression binds, `none` when nothing can tear
it apart. -/
def Expr.precedence? (m : Mode) : Expr → Option Nat
  | .binary op left right =>
    some (if Expr.isConcatenation op left right then otherPrecedence else op.precedence)
  | .member _ path _ => if 1 < path.length ∧ ¬isLengthPath path then some otherPrecedence else none
  | .call method _ _ => if method.isPredicate then some comparisonPrecedence else none
  | .unary .not _ => some negationPrecedence
  | .conditional _ _ _ => if m.insideCase then some 0 else none
  | _ => none

/-- Whether an expression is an operation of the given operator, and a
concatenation or not. -/
def Expr.isOperation (op : BinaryOp) (concat : Bool) : Expr → Bool
  | .binary o left right => o == op && Expr.isConcatenation o left right == concat
  | _ => false

/-- Whether an operand has to stand in parentheses. Comparisons are never
chained; of other operators the right operand is bracketed, unless it is the
same operator and may be regrouped. -/
def needsParens (op : BinaryOp) (concat : Bool) (precedence : Nat) (onRight : Bool) (m : Mode)
    (operand : Expr) : Bool :=
  match operand.precedence? m with
  | none => false
  | some p =>
    if p ≠ precedence then p < precedence
    else if op.isComparison then true
    else onRight && !(operand.isOperation op concat && op.isAssociative)

/-- A term, in parentheses if need be. -/
def parenIf (wrap : Bool) (t : Sql.Term Slot) : Sql.Term Slot := if wrap then .paren t else t

/-! ## Emission -/

/-- A decision tree as a term: a leaf is itself, anything else one `CASE`. -/
def caseTerm : Sql.Decision (Sql.Term Slot) → Sql.Term Slot
  | .leaf t => t
  | d => .caseWhen (d.flatten.1.map fun arm => ⟨arm.1, arm.2⟩) d.flatten.2

/-- What an expression becomes. -/
structure Emitted where
  /-- The branches of a conditional, or a single leaf. -/
  tree : Sql.Decision (Sql.Term Slot)
  /-- Whether a constant beside it is bound as text. -/
  jsonText : Bool

namespace Emitted

/-- A term that is no conditional. -/
def ofTerm (t : Sql.Term Slot) (jsonText : Bool) : Emitted := ⟨.leaf t, jsonText⟩

/-- The term that the expression is written as. -/
def term (e : Emitted) : Sql.Term Slot := caseTerm e.tree

end Emitted

/-- How many times a path takes a length: the segments `Length` at its end,
the first segment apart. -/
def lengthDepth (path : List String) : Nat :=
  ((path.drop 1).reverse.takeWhile (· == "Length")).length

/-- The length of the length of … a term. -/
def lengths : Nat → Sql.Term Slot → Sql.Term Slot
  | 0, t => t
  | n + 1, t => .lengthOf (lengths n t)

/-- A member with its name, where members are labelled. -/
def labelIf (m : Mode) (path : List String) (t : Sql.Term Slot) : Sql.Term Slot :=
  if m.labelling && !m.insideCase then .labelled t (memberName path) else t

/-- The column that a path starts from, with the way into it. A member that no
column matches is named as it is, or refused. -/
def columnTerm (sc : Scope) (own : Option String) (qualifier : Sql.Term Slot) (path : List String) :
    Sql.Term Slot :=
  match path with
  | [] => .slot (.reject .emptyPath)
  | base :: steps =>
    match sc.column? own base with
    | some c => .column qualifier c.dbName steps
    | none =>
      if sc.strict && !sc.isForeign own then
        .list [qualifier, .slot (.reject (.unresolvedMember path sc.table.name))]
      else .column qualifier base steps

/-- A member of a source that is written as `qualifier`. -/
def memberTerm (sc : Scope) (own : Option String) (qualifier : Sql.Term Slot) (path : List String)
    (m : Mode) : Emitted :=
  let depth := lengthDepth path
  let inner := path.take (path.length - depth)
  .ofTerm (labelIf m path (lengths depth (columnTerm sc own qualifier inner)))
    (depth == 0 && 1 < path.length)

/-- The select list of a source that counts groups. -/
def groupJoinTerm (table typeName : String) (columns : List (String × String))
    (inner outer : Sql.Term Slot) : Sql.Term Slot :=
  .list [.list (columns.map fun (member, name) =>
      .labelled (.column (.table table) name []) (typeName ++ "." ++ member)),
    .labelled (.groupCount table ("temp_" ++ table) inner outer) (typeName ++ ".__GROUP_COUNT")]

/-- The select list of a plain source. -/
def sourceTerm (table : String) (columns : List (String × String)) : Sql.Term Slot :=
  if columns.isEmpty then .allColumns table
  else .list (columns.map fun (_, name) => .column (.table table) name [])

/-- The words that a join of this kind begins with. -/
def JoinKind.keyword : JoinKind → String
  | .inner => "INNER JOIN"
  | .left => "LEFT JOIN"

/-- The word behind a key that is sorted by in this direction. -/
def SortDirection.keyword : SortDirection → String
  | .ascending => "ASC"
  | .descending => "DESC"

mutual
/-- The SQL of an expression. `beside` says whether it stands beside JSON text. -/
def Expr.emit : Expr → Scope → Mode → Bool → Emitted
  | .source s, sc, m, beside => s.emit sc m beside
  | .subquery q, sc, _, _ => .ofTerm (.subquery (q.emit sc)) false
  | .binary op left right, sc, m, _ =>
    let m := m.operand
    if op.isEquality && right.isNull then
      let t := (left.emit sc m false).term
      .ofTerm (.nullTest (parenIf (needsParens op false comparisonPrecedence false m left) t)
        (op == .notEqual)) false
    else if op.isEquality && left.isNull then
      let t := (right.emit sc m false).term
      .ofTerm (.nullTest (parenIf (needsParens op false comparisonPrecedence false m right) t)
        (op == .notEqual)) false
    else
      let concat := Expr.isConcatenation op left right
      let precedence := if concat then otherPrecedence else op.precedence
      let l := left.emit sc m false
      let r := right.emit sc m l.jsonText
      .ofTerm (.operation (parenIf (needsParens op concat precedence false m left) l.term)
        (if concat then .concat else .operator op)
        (parenIf (needsParens op concat precedence true m right) r.term)) false
  | .conditional test ifTrue ifFalse, sc, m, _ =>
    let m := m.inCase
    ⟨.test (test.emit sc m false).term (ifTrue.emit sc m false).tree (ifFalse.emit sc m false).tree,
      false⟩
  | .constant value, _, _, beside => .ofTerm (.slot (.value value beside)) beside
  | .member root path _, sc, m, beside =>
    if path.isEmpty then .ofTerm (.slot (.reject .emptyPath)) false
    else memberTerm sc (root.bind (·.table)) (emitRoot root sc m.forMemberRoot beside) path m
  | .call method receiver arguments, sc, m, _ =>
    let m := m.operand
    let template := Sql.Template.ofMethod method arguments.length
    if method = .concat then
      .ofTerm (.call template [.list (emitEach arguments sc m false)]) false
    else
      match emitOption receiver sc m with
      | none => .ofTerm (.call template (emitEach arguments sc m false)) false
      | some r =>
        let beside := method.comparesWithReceiver && r.jsonText
        .ofTerm (.call template (r.term :: emitEach arguments sc m beside))
          (method.transformsReceiver && r.jsonText)
  | .project items, sc, m, _ =>
    if items.isEmpty then .ofTerm (.slot (.reject .emptyProjection)) false
    else .ofTerm (.list (emitEach items sc m.operand.forLabels false)) false
  | .unary .not operand, sc, m, beside =>
    let e := operand.emit sc m.operand beside
    .ofTerm (.negation e.term) e.jsonText
  | .unary .convert operand, sc, m, beside =>
    let e := operand.emit sc m beside
    .ofTerm e.term e.jsonText
  | .unary .typeAs operand, sc, m, beside =>
    let e := operand.emit sc m beside
    .ofTerm e.term e.jsonText
/-- The select list of a source, or its table where it is the root of a member. -/
def Source.emit : Source → Scope → Mode → Bool → Emitted
  | ⟨typeName, members, own, groupJoin⟩, sc, m, beside =>
    let table := sc.tableName own
    let columns := sc.sourceColumns own members
    match groupJoin with
    | some ⟨outer, inner⟩ =>
      let i := inner.emit { sc with qualifier := some ("temp_" ++ table) } {} beside
      let o := outer.emit sc {} i.jsonText
      .ofTerm (groupJoinTerm table typeName columns i.term o.term) o.jsonText
    | none =>
      if m.memberRoot then .ofTerm (.table table) beside
      else .ofTerm (sourceTerm table columns) beside
/-- What stands in front of a member's column. -/
def emitRoot : Option Source → Scope → Mode → Bool → Sql.Term Slot
  | none, sc, _, _ => .table (sc.tableName none)
  | some s, sc, m, beside => (s.emit sc m beside).term
/-- An expression that may be missing. -/
def emitOption : Option Expr → Scope → Mode → Option Emitted
  | none, _, _ => none
  | some e, sc, m => some (e.emit sc m false)
/-- The SQL of several expressions, each standing beside the same thing. -/
def emitEach : List Expr → Scope → Mode → Bool → List (Sql.Term Slot)
  | [], _, _, _ => []
  | e :: rest, sc, m, beside => (e.emit sc m beside).term :: emitEach rest sc m beside
/-- The joins of a query, in order. -/
def emitJoins : List Join → Scope → List (Sql.JoinOn Slot)
  | [], _ => []
  | ⟨kind, table, outer, inner⟩ :: rest, sc =>
    ⟨kind.keyword, table, (outer.emit sc {} false).term, (inner.emit sc {} false).term⟩ ::
      emitJoins rest sc
/-- The sort keys of a query, in order. -/
def emitSortKeys : List SortKey → Scope → List (Sql.SortTerm Slot)
  | [], _ => []
  | ⟨key, direction⟩ :: rest, sc =>
    ⟨(key.emit sc {} false).term, direction.keyword⟩ :: emitSortKeys rest sc
/-- The statement of a query. Its columns are qualified by the table of its
own source, whatever the scope around it says. -/
def Query.emit : Query → Scope → Sql.Select Slot
  | ⟨source, selector, joins, conditions, filters, groupBy, orderBy, limit, offset, distinct, count⟩,
    sc =>
    let sc := { sc with qualifier := source.table }
    let table := source.table.getD sc.table.name
    { distinct := distinct
      items := if count then .countAll else
        match emitOption selector sc {} with
        | some e => e.term
        | none => (source.emit sc {} false).term
      schema := if table = sc.table.name then sc.table.schema else none
      table := table
      joins := emitJoins joins sc
      conditions := emitEach conditions sc {} false ++
        filters.map fun f => .slot (.filter (f.command sc.table (some table)))
      groupBy := emitEach groupBy sc {} false
      orderBy := emitSortKeys orderBy sc
      limit := limit
      offset := offset }
end

end ParamQuery
